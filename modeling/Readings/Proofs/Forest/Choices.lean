import Mathlib.Algebra.BigOperators.Group.List.Basic
import Readings.Forest.Reading
import Readings.Proofs.List

/-!
Choosing one element of each list.
-/

namespace Readings

variable {α : Type}

theorem mem_choices {xss : List (List α)} {xs : List α} :
    xs ∈ choices xss ↔ List.Forall₂ (· ∈ ·) xs xss := by
  induction xss generalizing xs with
  | nil => simp [choices]
  | cons ys xss ih =>
    simp only [choices, List.mem_flatMap, List.mem_map, List.forall₂_cons_right_iff, ih]
    constructor
    · intro h
      obtain ⟨y, hy, rest, hrest, hxs⟩ := h
      exact ⟨y, rest, hy, hrest, hxs.symm⟩
    · intro h
      obtain ⟨y, rest, hy, hrest, hxs⟩ := h
      exact ⟨y, hy, rest, hrest, hxs.symm⟩

/-- Choices are listed by the first place in which they differ. -/
theorem choices_pairwise {R : α → α → Prop} {xss : List (List α)}
    (h : ∀ xs ∈ xss, xs.Pairwise R) :
    (choices xss).Pairwise fun ys zs ↦ ∃ same y z ys' zs',
      ys = same ++ y :: ys' ∧ zs = same ++ z :: zs' ∧ R y z := by
  induction xss with
  | nil => exact List.pairwise_singleton _ _
  | cons xs xss ih =>
    obtain ⟨hxs, hxss⟩ := List.forall_mem_cons.1 h
    rw [choices, List.pairwise_flatMap]
    refine ⟨fun x _ ↦ List.pairwise_map.2 ((ih hxss).imp ?_), hxs.imp ?_⟩
    · rintro _ _ ⟨same, y, z, ys, zs, rfl, rfl, hyz⟩
      exact ⟨x :: same, y, z, ys, zs, rfl, rfl, hyz⟩
    · intro x x' hx ys hys zs hzs
      obtain ⟨ys, -, rfl⟩ := List.mem_map.1 hys
      obtain ⟨zs, -, rfl⟩ := List.mem_map.1 hzs
      exact ⟨[], x, x', ys, zs, rfl, rfl, hx⟩

theorem length_choices (xss : List (List α)) :
    (choices xss).length = (xss.map List.length).prod := by
  induction xss with
  | nil => rfl
  | cons xs xss ih =>
    rw [choices, List.length_flatMap, List.map_cons, List.prod_cons, ← ih]
    simp

theorem filter_choices (p : α → Bool) (xss : List (List α)) :
    (choices xss).filter (·.all p) = choices (xss.map (·.filter p)) := by
  induction xss with
  | nil => rfl
  | cons xs xss ih =>
    rw [choices, List.filter_flatMap, List.map_cons, choices, ← ih]
    refine (flatMap_filter_of_eq_nil (p := p) fun x _ hx ↦ ?_).symm.trans ?_
    · simp [List.filter_map, Function.comp_def, hx]
    · refine List.flatMap_congr fun x hx ↦ ?_
      simp [List.filter_map, Function.comp_def, List.of_mem_filter hx]

theorem choices_eq_nil {xss : List (List α)} (h : [] ∈ xss) : choices xss = [] := by
  induction xss with
  | nil => cases h
  | cons xs xss ih =>
    rcases List.mem_cons.1 h with rfl | h
    · rfl
    · rw [choices, ih h]
      simp

end Readings
