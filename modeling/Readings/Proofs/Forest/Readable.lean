import Readings.Proofs.Forest.Counting
import Readings.Proofs.Forest.Reading

/-!
Every sentence that a grammar derives has a reading: what is cut off a derivation that goes round a
cycle is never all of it.
-/

namespace Readings

open Readings.Span Grammar

variable {g : Grammar} {tokens : List String}

theorem Grammar.Derives.tokens_ne_nil (hg : g.WellFormed) {cs ts : List String}
    (h : g.Derives cs ts) (hc : cs ≠ []) : ts ≠ [] := by
  induction h with
  | nil => exact absurd rfl hc
  | token => exact List.cons_ne_nil _ _
  | rule mem _ _ ih _ => exact List.append_ne_nil_of_left_ne_nil (ih (hg.rhs_ne_nil _ mem)) _

namespace Forest

theorem isSome_root?_iff {start : String} (hs : g.isNonterminal start) :
    ((g.forest tokens).root? start).isSome ↔
      (g.forest tokens).chart.has ⟨start, ⟨0, tokens.length⟩⟩ := by
  rw [Option.isSome_iff_exists]
  constructor
  · intro h
    obtain ⟨k, hk⟩ := h
    obtain ⟨-, -, hhas, rfl⟩ := root?_eq_some_iff.1 hk
    exact hhas
  · intro hhas
    have hpos := ((grown g tokens).inSentence hhas).1
    exact ⟨_, root?_eq_some_iff.2 ⟨hs, hpos, hhas, rfl⟩⟩

theorem isSome_root?_iff_derives (hg : g.WellFormed) {start : String} (hs : g.isNonterminal start) :
    ((g.forest tokens).root? start).isSome ↔ g.Derives [start] tokens := by
  rw [isSome_root?_iff hs, ← isSome_node?, isSome_node?_iff_derives hg, slice_whole]
  refine and_iff_right_of_imp fun h ↦ ⟨?_, Nat.le_refl _⟩
  exact List.length_pos_iff.2 (h.tokens_ne_nil hg (List.cons_ne_nil _ _))

theorem readings_ne_nil_iff (hg : g.WellFormed) {start : String} (hs : g.isNonterminal start) :
    (g.forest tokens).readings start ≠ [] ↔ ((g.forest tokens).root? start).isSome := by
  rw [isSome_root?_iff hs]
  constructor
  · intro h
    obtain ⟨t, ht⟩ := List.exists_mem_of_ne_nil _ h
    obtain ⟨⟨hparses, -⟩, hroot⟩ := (mem_readings_iff hg hs).1 ht
    exact hroot ▸ has_of_parses hg hparses
  · intro h
    obtain ⟨t, ht, hroot⟩ := exists_parse_of_has hg h
    obtain ⟨u, hu, hsame, hsimple⟩ := ht.exists_simple
    exact List.ne_nil_of_mem ((mem_readings_iff hg hs).2 ⟨⟨hu, hsimple⟩, hsame.trans hroot⟩)

theorem readingCount_pos_iff {f : Forest} (hf : f.Shareable) {name : String} :
    0 < f.readingCount name ↔ f.readings name ≠ [] := by
  rw [readingCount_eq_saturate hf, ← List.length_pos_iff]
  have hcap : 0 < countCap := by decide
  rw [saturate]
  omega

end Forest

/-- A sentence is derivable from a nonterminal if and only if its forest has a root there, if and
only if the count of readings is positive, if and only if there is a reading. -/
theorem derivable_iff_readable (g : Grammar) (hg : g.Built) (start : String)
    (hs : g.isNonterminal start) (tokens : List String) :
    ∃ f, enumerate g start tokens .unlimited = .ok f ∧
      (g.Derives [start] tokens ↔ (f.root? start).isSome) ∧
      ((f.root? start).isSome ↔ 0 < f.readingCount start) ∧
      (0 < f.readingCount start ↔ f.readings start ≠ []) := by
  have hwf := hg.wellFormed
  have hcount : 0 < (g.forest tokens).readingCount start ↔ (g.forest tokens).readings start ≠ [] :=
    Forest.readingCount_pos_iff (Forest.shareable_forest hwf tokens)
  refine ⟨g.forest tokens, enumerate_unlimited hs, ?_, ?_, hcount⟩
  · exact (Forest.isSome_root?_iff_derives hwf hs).symm
  · exact (Forest.readings_ne_nil_iff hwf hs).symm.trans hcount.symm

theorem derivable_iff_readable_looping :
    looping.Built ∧ looping.isNonterminal "A" ∧
      ∃ f, enumerate looping "A" ["x"] .unlimited = .ok f ∧
        (looping.Derives ["A"] ["x"] ↔ (f.root? "A").isSome) ∧
        ((f.root? "A").isSome ↔ 0 < f.readingCount "A") ∧
        (0 < f.readingCount "A" ↔ f.readings "A" ≠ []) :=
  ⟨looping_built, by decide, derivable_iff_readable looping looping_built "A" (by decide) ["x"]⟩

end Readings
