import Mathlib.Algebra.BigOperators.Intervals
import Mathlib.Data.Nat.Choose.Basic
import Readings.Proofs.Chart.Growth

/-!
Sums over the spans of a sentence. There are the fewer spans of a width the wider they are; what
grows with the width as a binomial coefficient adds up to another one.
-/

namespace Readings

theorem sum_range_choose_right (n k : Nat) :
    ∑ w ∈ Finset.range n, w.choose k = n.choose (k + 1) := by
  induction n with
  | zero => rfl
  | succ n ih => rw [Finset.sum_range_succ, ih, Nat.choose_succ_succ, Nat.add_comm]

theorem sum_range_sub_mul_choose (n k : Nat) :
    ∑ w ∈ Finset.range n, (n - w) * w.choose k = (n + 1).choose (k + 2) := by
  induction n with
  | zero => rfl
  | succ n ih =>
    have hstep : ∀ w ∈ Finset.range (n + 1),
        (n + 1 - w) * w.choose k = (n - w) * w.choose k + w.choose k := by
      intro w hw
      rw [Nat.succ_sub (Finset.mem_range_succ_iff.1 hw), Nat.succ_mul]
    rw [Finset.sum_congr rfl hstep, Finset.sum_add_distrib, Finset.sum_range_succ, ih,
      Nat.sub_self, Nat.zero_mul, Nat.add_zero, sum_range_choose_right,
      Nat.choose_succ_succ (n + 1), Nat.add_comm]

namespace Span

theorem length_ofSentenceWidth (n width : Nat) :
    (ofSentenceWidth n width).length = n + 1 - width := by
  rw [ofSentenceWidth, List.length_map, List.length_range]

/-- A sum over all spans, by width. -/
theorem sum_map_width (n : Nat) (amount : Nat → Nat) :
    ((ofSentence n).map fun s ↦ amount s.width).sum =
      ∑ w ∈ Finset.range n, (n - w) * amount (w + 1) := by
  have hwidth (w : Nat) : (ofSentenceWidth n w).map (fun s ↦ amount s.width) =
      List.replicate (n + 1 - w) (amount w) := by
    rw [ofSentenceWidth, List.map_map]
    simp [Function.comp_def]
  rw [ofSentence, List.map_flatMap, List.flatMap_def, List.sum_flatten, List.map_map,
    List.range'_eq_map_range, List.map_map]
  refine congrArg List.sum (List.map_congr_left fun w _ ↦ ?_)
  rw [Function.comp_apply, Function.comp_apply, hwidth, List.sum_replicate, Nat.nsmul_eq_mul,
    Nat.add_comm 1 w, Nat.add_sub_add_right]

theorem length_ofSentence (n : Nat) : (ofSentence n).length = (n + 1).choose 2 := by
  have hsum := sum_map_width n fun _ ↦ 1
  simp only [List.map_const', List.sum_replicate, Nat.nsmul_eq_mul, Nat.mul_one] at hsum
  rw [hsum, ← sum_range_sub_mul_choose n 0]
  exact Finset.sum_congr rfl fun w _ ↦ by rw [Nat.choose_zero_right, Nat.mul_one]

end Span

end Readings
