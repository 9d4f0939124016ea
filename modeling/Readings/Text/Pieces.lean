/-!
Splitting a list at a separator. A list with `n` separators has `n + 1` pieces, some of which may
be empty; putting the separator between them gives the list back.
-/

namespace Readings.Text

variable {α : Type} [DecidableEq α]

/-- The piece before the first separator, and the pieces after it. -/
def cut (sep : α) (xs : List α) : List α × List (List α) :=
  xs.foldr (fun a p ↦ if a = sep then ([], p.1 :: p.2) else (a :: p.1, p.2)) ([], [])

def pieces (sep : α) (xs : List α) : List (List α) := (cut sep xs).1 :: (cut sep xs).2

@[simp] theorem pieces_nil (sep : α) : pieces sep [] = [[]] := rfl

@[simp] theorem pieces_cons_self (sep : α) (xs : List α) :
    pieces sep (sep :: xs) = [] :: pieces sep xs := by
  simp [pieces, cut]

theorem pieces_cons_of_ne {sep a : α} (h : a ≠ sep) (xs : List α) :
    pieces sep (a :: xs) = (a :: (cut sep xs).1) :: (cut sep xs).2 := by
  simp [pieces, cut, h]

theorem pieces_ne_nil (sep : α) (xs : List α) : pieces sep xs ≠ [] := by simp [pieces]

theorem not_mem_of_mem_pieces {sep : α} {xs p : List α} (h : p ∈ pieces sep xs) : sep ∉ p := by
  induction xs generalizing p with
  | nil => simp_all
  | cons a xs ih =>
    by_cases ha : a = sep
    · subst ha
      rw [pieces_cons_self, List.mem_cons] at h
      obtain rfl | h := h
      · exact List.not_mem_nil
      · exact ih h
    · rw [pieces_cons_of_ne ha, List.mem_cons] at h
      obtain rfl | h := h
      · have := ih (p := (cut sep xs).1) (by simp [pieces])
        simp [this, Ne.symm ha]
      · exact ih (by simp [pieces, h])

end Readings.Text
