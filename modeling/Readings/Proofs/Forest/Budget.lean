import Readings.Forest.Enumeration

/-!
When an enumeration is cut short. What a budget does to it depends on the budget, on the number of
tokens and on what the charts of all widths cost, and on nothing else of the charts.
-/

namespace Readings

/-- The steps and the width that an enumeration of `n` tokens is given up with, if the chart of each
width has this cost. -/
def Budget.overrun? (b : Budget) (cost : Nat → Nat) (n : Nat) : Option (Nat × Nat) :=
  match (List.range n).find? fun w ↦ b.isSpent (cost w) with
  | some w => some (cost w, w + 1)
  | none => if n ≠ 0 ∧ b.isSpent (cost n) then some (cost n, n) else none

namespace Budget

def limited (limit : Nat) : Budget := { maxSteps := some limit }

theorem isSpent_limited {limit steps : Nat} : (limited limit).isSpent steps ↔ limit < steps := by
  simp [isSpent, limited]

theorem overrun?_unlimited (cost : Nat → Nat) (n : Nat) : unlimited.overrun? cost n = none := by
  have hfind : (List.range n).find? (fun w ↦ unlimited.isSpent (cost w)) = none :=
    List.find?_eq_none.2 fun w _ ↦ Bool.false_ne_true
  rw [overrun?, hfind]
  exact if_neg fun h ↦ Bool.false_ne_true h.2

theorem overrun?_zero (b : Budget) (cost : Nat → Nat) : b.overrun? cost 0 = none := rfl

section Overrun

variable {b : Budget} {cost : Nat → Nat} {n w : Nat}

theorem overrun?_of_first (hw : w < n) (hspent : b.isSpent (cost w))
    (hbefore : ∀ v < w, ¬ b.isSpent (cost v)) : b.overrun? cost n = some (cost w, w + 1) := by
  have hfind : (List.range n).find? (fun v ↦ b.isSpent (cost v)) = some w := by
    rw [List.find?_range_eq_some]
    exact ⟨hspent, List.mem_range.2 hw, fun v hv ↦ by simpa using hbefore v hv⟩
  rw [overrun?, hfind]

theorem overrun?_of_last (hn : 0 < n) (hspent : b.isSpent (cost n))
    (hbefore : ∀ v < n, ¬ b.isSpent (cost v)) : b.overrun? cost n = some (cost n, n) := by
  have hfind : (List.range n).find? (fun v ↦ b.isSpent (cost v)) = none :=
    List.find?_eq_none.2 fun v hv ↦ hbefore v (List.mem_range.1 hv)
  rw [overrun?, hfind]
  exact if_pos ⟨Nat.ne_of_gt hn, hspent⟩

theorem overrun?_limited_eq_none_iff {limit : Nat} (hzero : cost 0 = 0)
    (hmono : ∀ v ≤ n, cost v ≤ cost n) :
    (limited limit).overrun? cost n = none ↔ cost n ≤ limit := by
  rw [overrun?]
  cases hfind : (List.range n).find? fun v ↦ (limited limit).isSpent (cost v) with
  | some w =>
    obtain ⟨hspent, hw, -⟩ := List.find?_range_eq_some.1 hfind
    have hle := hmono w (Nat.le_of_lt (List.mem_range.1 hw))
    rw [isSpent_limited] at hspent
    simp only [reduceCtorEq, false_iff]
    omega
  | none =>
    simp only [isSpent_limited, ite_eq_right_iff, reduceCtorEq, imp_false, not_and, Nat.not_lt]
    refine ⟨fun h ↦ ?_, fun h _ ↦ h⟩
    by_cases hn : n = 0
    · rw [hn, hzero]
      exact Nat.zero_le limit
    · exact h hn

end Overrun

end Budget

namespace Chart

variable {g : Grammar} {tokens : List String}

/-- Growing by some more widths, up to the first whose check fails. -/
theorem foldlM_check_eq (b : Budget) (w n : Nat) :
    (List.range' (w + 1) n).foldlM
      (fun c width ↦ (extend g tokens · width) <$> c.check b width) (upTo g tokens w) =
      match (List.range' w n).find? fun v ↦ b.isSpent (upTo g tokens v).steps with
      | some v => .error (.overBudget (upTo g tokens v).steps (v + 1))
      | none => .ok (upTo g tokens (w + n)) := by
  induction n generalizing w with
  | zero => rfl
  | succ n ih =>
    rw [List.range'_succ, List.range'_succ, List.foldlM_cons, List.find?_cons, check]
    cases hspent : b.isSpent (upTo g tokens w).steps with
    | true => rfl
    | false =>
      refine (ih (w + 1)).trans ?_
      rw [Nat.add_right_comm]
      rfl

theorem ofSentence_eq (b : Budget) :
    ofSentence g tokens b =
      match b.overrun? (fun w ↦ (upTo g tokens w).steps) tokens.length with
      | some (steps, width) => .error (.overBudget steps width)
      | none => .ok (upTo g tokens tokens.length) := by
  have hfold := @foldlM_check_eq g tokens b 0 tokens.length
  rw [Nat.zero_add, Nat.zero_add, upTo] at hfold
  rw [ofSentence, Budget.overrun?, List.range_eq_range']
  rw [hfold]
  cases (List.range' 0 tokens.length).find? fun v ↦ b.isSpent (upTo g tokens v).steps with
  | some v => rfl
  | none =>
    change (if tokens.length = 0 then .ok _ else check b _ tokens.length) = _
    by_cases hzero : tokens.length = 0
    · rw [if_pos hzero, if_neg fun h ↦ h.1 hzero]
    · rw [if_neg hzero, check]
      cases b.isSpent (upTo g tokens tokens.length).steps with
      | true => simp [hzero]
      | false => simp

end Chart

end Readings
