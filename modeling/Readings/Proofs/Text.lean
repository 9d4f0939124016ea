import Readings.Proofs.List
import Readings.Text.Lines

/-!
Texts taken apart. The pieces of a list put together give the list back, and the lines of a text are
found by what stands before them.
-/

namespace Readings.Text

section Pieces

variable {α : Type} [DecidableEq α] {sep : α}

theorem pieces_eq_splitOn (sep : α) (xs : List α) : pieces sep xs = xs.splitOn sep := by
  induction xs with
  | nil => rfl
  | cons a xs ih =>
    rw [List.splitOn_cons_eq_if_modifyHead, ← ih]
    by_cases h : a = sep
    · rw [h, pieces_cons_self]
      simp
    · rw [pieces_cons_of_ne h, if_neg (by simpa using h)]
      rfl

theorem pieces_eq_iff {xs : List α} {ps : List (List α)} :
    pieces sep xs = ps ↔ ps ≠ [] ∧ (∀ p ∈ ps, sep ∉ p) ∧ [sep].intercalate ps = xs := by
  constructor
  · intro h
    subst h
    refine ⟨pieces_ne_nil sep xs, fun p ↦ not_mem_of_mem_pieces, ?_⟩
    rw [pieces_eq_splitOn, List.intercalate_splitOn]
  · intro h
    obtain ⟨hne, hsep, rfl⟩ := h
    rw [pieces_eq_splitOn, List.splitOn_intercalate sep hsep hne]

theorem pieces_of_notMem {xs : List α} (h : sep ∉ xs) : pieces sep xs = [xs] := by
  rw [pieces_eq_splitOn, List.splitOn_eq_singleton h]

theorem pieces_append_cons {xs : List α} (h : sep ∉ xs) (ys : List α) :
    pieces sep (xs ++ sep :: ys) = xs :: pieces sep ys := by
  rw [pieces_eq_splitOn, List.splitOn_append_cons_self, ← pieces_eq_splitOn, ← pieces_eq_splitOn,
    pieces_of_notMem h, List.singleton_append]

end Pieces

section Lines

variable {α : Type} [DecidableEq α] {feed cr : α}

theorem splitLines_of_notMem {line : List α} (h : feed ∉ line) :
    splitLines feed cr line = if line = [] then [] else [line] := by
  rw [splitLines, pieces_of_notMem h]
  by_cases hline : line = [] <;> simp [hline]

theorem splitLines_append_cons {line : List α} (h : feed ∉ line) (rest : List α) :
    splitLines feed cr (line ++ feed :: rest) = chop cr line :: splitLines feed cr rest := by
  rw [splitLines, pieces_append_cons h]
  simp only [List.dropLast_cons_of_ne_nil (pieces_ne_nil feed rest), List.map_cons,
    List.getLast?_cons_of_ne_nil (pieces_ne_nil feed rest), List.cons_append, splitLines]

theorem splitLines_flatMap_append {before : List (List α)} (h : ∀ l ∈ before, feed ∉ l)
    (rest : List α) : splitLines feed cr (before.flatMap (· ++ [feed]) ++ rest) =
      before.map (chop cr) ++ splitLines feed cr rest := by
  induction before with
  | nil => rfl
  | cons l before ih =>
    obtain ⟨hl, hbefore⟩ := List.forall_mem_cons.1 h
    rw [List.flatMap_cons, List.append_assoc, List.append_assoc, List.singleton_append,
      splitLines_append_cons hl, ih hbefore]
    rfl

theorem exists_eq_flatMap_append (feed : α) (text : List α) :
    ∃ (before : List (List α)) (rest : List α), (∀ l ∈ before, feed ∉ l) ∧ feed ∉ rest ∧
      text = before.flatMap (· ++ [feed]) ++ rest := by
  induction text with
  | nil => exact ⟨[], [], by simp, by simp, rfl⟩
  | cons a text ih =>
    obtain ⟨before, rest, hbefore, hrest, rfl⟩ := ih
    by_cases ha : a = feed
    · exact ⟨[] :: before, rest, by simpa using hbefore, hrest, by simp [ha]⟩
    · have ha' : feed ≠ a := Ne.symm ha
      cases before with
      | nil => exact ⟨[], a :: rest, by simp, by simp [ha', hrest], rfl⟩
      | cons l before =>
        obtain ⟨hl, hbefore⟩ := List.forall_mem_cons.1 hbefore
        refine ⟨(a :: l) :: before, rest, List.forall_mem_cons.2 ⟨?_, hbefore⟩, hrest, rfl⟩
        simp [ha', hl]

theorem isLine_iff {text line : List Char} {number : Nat} :
    IsLine text number line ↔ (line, number) ∈ (lines text).zipIdx 1 := by
  rw [List.mk_mem_zipIdx_iff_le_and_getElem?_sub, lines]
  constructor
  · intro h
    cases h with
    | ended noFeed whole =>
      rw [splitLines_flatMap_append noFeed, splitLines_append_cons whole]
      simp
    | last noFeed whole nonempty =>
      rw [splitLines_flatMap_append noFeed, splitLines_of_notMem whole, if_neg nonempty]
      simp
  · intro h
    obtain ⟨hnumber, hline⟩ := h
    obtain ⟨i, rfl⟩ := Nat.exists_eq_add_of_le' hnumber
    obtain ⟨before, rest, hbefore, hrest, rfl⟩ := exists_eq_flatMap_append '\n' text
    rw [splitLines_flatMap_append hbefore, splitLines_of_notMem hrest, Nat.add_sub_cancel,
      List.getElem?_append] at hline
    -- a line with a line feed, or what is left behind the last one
    split at hline
    next hlt =>
      rw [List.getElem?_map, Option.map_eq_some_iff] at hline
      obtain ⟨raw, hraw, rfl⟩ := hline
      obtain ⟨before, after, rfl, rfl⟩ := exists_append_of_getElem? hraw
      rw [List.forall_mem_append, List.forall_mem_cons] at hbefore
      rw [List.flatMap_append, List.flatMap_cons, List.append_assoc, List.append_assoc,
        List.append_assoc, List.singleton_append]
      exact .ended hbefore.1 hbefore.2.1
    next hle =>
      split at hline
      next => cases hline
      next hne =>
        rw [List.getElem?_singleton, Option.ite_none_right_eq_some] at hline
        obtain ⟨hi, hline⟩ := hline
        cases hline
        rw [List.length_map] at hi hle
        obtain rfl : i = before.length := by omega
        exact .last hbefore hrest hne

theorem exists_lined (text : List Char) : ∃ ls, Lined text ls := by
  obtain ⟨before, rest, hbefore, hrest, rfl⟩ := exists_eq_flatMap_append '\n' text
  by_cases h : rest = []
  · rw [h, List.append_nil]
    exact ⟨before, .closed hbefore⟩
  · exact ⟨before ++ [rest], .unclosed hbefore hrest h⟩

theorem apply_chop {β : Type} {f : List α → β} (h : ∀ line, f (line ++ [cr]) = f line)
    (line : List α) : f (chop cr line) = f line := by
  rw [chop]
  split
  next hlast =>
    rw [← h line.dropLast, List.dropLast_append_getLast? cr hlast]
  next => rfl

/-- What takes no notice of a carriage return at the end of a line sees the lines as they are
written. -/
theorem Lined.map_lines {β : Type} {f : List Char → β} (hf : ∀ line, f (line ++ ['\r']) = f line)
    {text : List Char} {ls : List (List Char)} (h : Lined text ls) :
    (lines text).map f = ls.map f := by
  have hmap (ls : List (List Char)) : (ls.map (chop '\r')).map f = ls.map f := by
    rw [List.map_map]
    exact List.map_congr_left fun line _ ↦ apply_chop hf line
  cases h with
  | closed noFeed =>
    rw [← List.append_nil (ls.flatMap _), lines, splitLines_flatMap_append noFeed,
      List.map_append, hmap]
    simp [splitLines]
  | unclosed noFeed whole nonempty =>
    rw [lines, splitLines_flatMap_append noFeed, splitLines_of_notMem whole, if_neg nonempty,
      List.map_append, List.map_append, hmap]

end Lines

end Readings.Text
