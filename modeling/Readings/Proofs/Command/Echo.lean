import Readings.Command.Run
import Readings.Proofs.Except
import Readings.Proofs.Forest.Counting
import Readings.Proofs.Forest.Reading

/-!
Reading the words back. Joining the children of each node by a space gives back the part of the
sentence that a tree covers, so that every reading of a sentence means the sentence, and the command
lists the same trees whether it is asked for their meanings or not.
-/

namespace Readings

open Grammar

/-- Joining rows that have been joined is joining all at once, if none of the rows is empty. -/
theorem intercalate_map_intercalate (s : String) {xss : List (List String)}
    (h : ∀ xs ∈ xss, xs ≠ []) :
    s.intercalate (xss.map s.intercalate) = s.intercalate xss.flatten := by
  induction xss with
  | nil => rfl
  | cons xs xss ih =>
    obtain ⟨hxs, hxss⟩ := List.forall_mem_cons.1 h
    rw [List.map_cons, List.flatten_cons]
    by_cases hnil : xss = []
    · subst hnil
      simp
    · have hmap : xss.map s.intercalate ≠ [] := mt List.map_eq_nil_iff.1 hnil
      have hflatten : xss.flatten ≠ [] := by
        obtain ⟨ys, hys⟩ := List.exists_mem_of_ne_nil xss hnil
        exact mt List.flatten_eq_nil_iff.1 fun hall ↦ hxss ys hys (hall ys hys)
      rw [String.intercalate_cons_of_ne_nil hmap, String.intercalate_append_of_ne_nil hxs hflatten,
        ih hxss]

variable {g : Grammar} {tokens : List String}

namespace Interpretation

theorem evaluate_echo (hg : g.WellFormed) {t : Tree} (h : t.Parses g tokens) :
    echo.evaluate t = .ok (" ".intercalate t.tokens) := by
  induction h with
  | leaf => exact congrArg Except.ok String.intercalate_singleton.symm
  | @node rule span children mem matched tile below ih =>
    have hvalues : children.mapM echo.evaluate =
        .ok ((children.map Tree.tokens).map " ".intercalate) := by
      rw [mapM_eq_ok_iff, List.map_map, List.forall₂_map_right_iff, List.forall₂_same]
      exact ih
    rw [evaluate_node, hvalues, Tree.tokens, Tree.fold_node, ← intercalate_map_intercalate]
    · rfl
    · intro xs hxs
      obtain ⟨t, ht, rfl⟩ := List.mem_map.1 hxs
      exact (below t ht).tokens_ne_nil hg

end Interpretation

namespace Command

theorem readingLines_echo (hg : g.WellFormed) {start : String} {t : Tree}
    (ht : t ∈ (g.forest tokens).readings start) :
    readingLines ⟨t, Interpretation.echo.evaluate t⟩ =
      [toString t, "  = " ++ " ".intercalate tokens] := by
  have hspan : t.span = ⟨0, tokens.length⟩ :=
    congrArg Constituent.span (Forest.constituent_of_mem_readings hg ht)
  have hparses := Forest.parses_of_mem_readings hg ht
  rw [readingLines, Interpretation.evaluate_echo hg hparses, hparses.tokens_eq, hspan,
    Span.slice_whole]

/-- The line above the readings of a sentence. -/
def header (count : Nat) : String := s!"{count} reading(s)"

/-- Whether or not the words are read back, the command fails with the same error, or lists the same
trees in the same order, below the same line as long as their count is not cut off. The words of the
sentence are what is read back from every tree, and no tree fails. -/
theorem echo_agrees (g : Grammar) (hg : g.Built) (start : String) (a : Arguments) :
    (∃ e, enumerate g start a.tokens a.budget = .error e ∧
      analyse g start a.tokens a.budget = .failure [] [e.message] ∧
      echo g start a.tokens a.budget = .failure [] [e.message]) ∨
    ∃ f, enumerate g start a.tokens a.budget = .ok f ∧
      analyse g start a.tokens a.budget =
        .success (header (f.readingCount start) :: (f.readings start).map toString) ∧
      echo g start a.tokens a.budget =
        .success (header (f.readings start).length ::
          (f.readings start).flatMap fun t ↦ [toString t, "  = " ++ " ".intercalate a.tokens]) ∧
      ((f.readings start).length < 2 ^ 128 →
        header (f.readingCount start) = header (f.readings start).length) ∧
      ∃ readings, interpret g start a.tokens .echo a.budget = .ok readings ∧
        Reading.failures readings = [] := by
  cases hf : enumerate g start a.tokens a.budget with
  | error e =>
    refine .inl ⟨e, rfl, ?_, ?_⟩
    · rw [analyse, hf]
    · rw [echo, interpret, hf]
      rfl
  | ok f =>
    obtain rfl := eq_forest_of_enumerate hf
    have hcount := Forest.readingCount_eq_saturate
      (Forest.shareable_forest hg.wellFormed a.tokens) start
    have hinterpret : interpret g start a.tokens .echo a.budget =
        .ok (Interpretation.echo.evaluateEach ((g.forest a.tokens).readings start)) := by
      rw [interpret, hf]
      rfl
    refine .inr ⟨_, rfl, ?_, ?_, fun hlt ↦ ?_, _, hinterpret, ?_⟩
    · rw [analyse, hf]
      rfl
    · simp only [echo, hinterpret, Interpretation.evaluateEach, List.length_map, List.flatMap_map]
      rw [List.flatMap_congr fun t ht ↦ readingLines_echo hg.wellFormed ht]
      rfl
    · have hcap : ((g.forest a.tokens).readings start).length ≤ countCap :=
        Nat.le_sub_one_of_lt hlt
      rw [hcount, saturate, Nat.min_eq_right hcap]
    · rw [Reading.failures, Interpretation.evaluateEach, List.filterMap_map]
      refine List.filterMap_eq_nil_iff.2 fun t ht ↦ ?_
      have hparses := Forest.parses_of_mem_readings hg.wellFormed ht
      simp only [Function.comp_apply, Interpretation.evaluate_echo hg.wellFormed hparses]

theorem echo_agrees_looping :
    let a : Arguments :=
      { file := "g", words := ["x  x", "x"], start := none, generate := none, depth := 8
        maxSteps := some 100, timeout := none, parallel := false, echo := false }
    looping.Built ∧ a.tokens = ["x", "x", "x"] ∧
      ((∃ e, enumerate looping "S" a.tokens a.budget = .error e ∧
        analyse looping "S" a.tokens a.budget = .failure [] [e.message] ∧
        echo looping "S" a.tokens a.budget = .failure [] [e.message]) ∨
      ∃ f, enumerate looping "S" a.tokens a.budget = .ok f ∧
        analyse looping "S" a.tokens a.budget =
          .success (header (f.readingCount "S") :: (f.readings "S").map toString) ∧
        echo looping "S" a.tokens a.budget =
          .success (header (f.readings "S").length ::
            (f.readings "S").flatMap fun t ↦
              [toString t, "  = " ++ " ".intercalate a.tokens]) ∧
        ((f.readings "S").length < 2 ^ 128 →
          header (f.readingCount "S") = header (f.readings "S").length) ∧
        ∃ readings, interpret looping "S" a.tokens .echo a.budget = .ok readings ∧
          Reading.failures readings = []) :=
  ⟨looping_built, by cbv, echo_agrees looping looping_built "S" _⟩

end Command

end Readings
