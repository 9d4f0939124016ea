import Mathlib.Algebra.Order.Ring.Nat
import Mathlib.Data.List.Sort
import Mathlib.Data.List.Sublists

/-!
Counting by increasing sequences. What can be told apart by `k` increasing numbers below `n` occurs
at most `n.choose k` times.
-/

namespace Readings

/-- The sequence has `k` members, increases and stays below `n`. -/
structure Increasing (n k : Nat) (xs : List Nat) : Prop where
  length_eq : xs.length = k
  sorted : xs.Pairwise (· < ·)
  lt : ∀ x ∈ xs, x < n

theorem Increasing.mem_sublistsLen {n k : Nat} {xs : List Nat} (h : Increasing n k xs) :
    xs ∈ (List.range n).sublistsLen k := by
  have hnodup : xs.Nodup := h.sorted.imp Nat.ne_of_lt
  have hsubset : xs ⊆ List.range n := fun x hx ↦ List.mem_range.2 (h.lt x hx)
  refine List.mem_sublistsLen.2 ⟨?_, h.length_eq⟩
  exact List.sublist_of_subperm_of_pairwise (hnodup.subperm hsubset) h.sorted
    List.pairwise_lt_range

theorem length_le_choose {n k : Nat} {xss : List (List Nat)} (hnodup : xss.Nodup)
    (h : ∀ xs ∈ xss, Increasing n k xs) : xss.length ≤ n.choose k := by
  have hle := hnodup.length_le_of_subset fun xs hxs ↦ (h xs hxs).mem_sublistsLen
  rwa [List.length_sublistsLen, List.length_range] at hle

/-- Lists for different indices together, if index and member can be read off an increasing
sequence. -/
theorem sum_length_le_choose {α β : Type} {n k : Nat} {xs : List α} {f : α → List β}
    (code : α → β → List Nat) (hxs : xs.Nodup) (hf : ∀ x ∈ xs, (f x).Nodup)
    (hcode : ∀ x ∈ xs, ∀ y ∈ f x, Increasing n k (code x y))
    (hinj : ∀ x ∈ xs, ∀ y ∈ f x, ∀ x' ∈ xs, ∀ y' ∈ f x', code x y = code x' y' → x = x' ∧ y = y') :
    (xs.map fun x ↦ (f x).length).sum ≤ n.choose k := by
  have hlength : (xs.flatMap fun x ↦ (f x).map (code x)).length =
      (xs.map fun x ↦ (f x).length).sum := by
    simp only [List.length_flatMap, List.length_map]
  rw [← hlength]
  refine length_le_choose (List.nodup_flatMap.2 ⟨fun x hx ↦ ?_, ?_⟩) fun zs hzs ↦ ?_
  · exact (hf x hx).map_on fun y hy y' hy' he ↦ (hinj x hx y hy x hx y' hy' he).2
  · refine hxs.imp_of_mem fun {x x'} hx hx' hne zs hzs hzs' ↦ hne ?_
    obtain ⟨y, hy, rfl⟩ := List.mem_map.1 hzs
    obtain ⟨y', hy', he⟩ := List.mem_map.1 hzs'
    exact (hinj x hx y hy x' hx' y' hy' he.symm).1
  · obtain ⟨x, hx, hzs⟩ := List.mem_flatMap.1 hzs
    obtain ⟨y, hy, rfl⟩ := List.mem_map.1 hzs
    exact hcode x hx y hy

end Readings
