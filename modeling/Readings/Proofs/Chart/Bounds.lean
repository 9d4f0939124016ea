import Mathlib.Algebra.Order.BigOperators.Group.List
import Readings.Proofs.Chart.Steps
import Readings.Proofs.Chart.Widths
import Readings.Proofs.Increasing

/-!
How much a chart can hold. A row that a rule matches is told apart by where its parts begin and
end, and a place that is kept for a partial match by itself and the bounds of the span; of such
increasing sequences of positions there are only so many.
-/

namespace Readings.Chart

open Readings.Span

variable {g : Grammar} {tokens : List String} {c : Chart} {rule : Rule}

theorem length_newSplits_one_le (c : Chart) (nodes : List Node) (s : Span) (rule : Rule) :
    (c.newSplits nodes s rule 1).length ≤ 1 := by
  rw [newSplits]
  split
  · exact Nat.zero_le 1
  -- the first symbol starts where the span does
  · rw [if_pos (Nat.le_refl 1)]
    split <;> simp

namespace Grown

variable (hg : g.WellFormed) (hc : Grown g tokens tokens.length c) (hr : rule ∈ g.rules)
include hg hc hr

/-- A rule matches no more rows than there are ways to place the boundaries of its parts. -/
theorem sum_length_rows_le :
    ((Span.ofSentence tokens.length).map fun s ↦ (c.rows s rule).length).sum ≤
      (tokens.length + 1).choose (rule.arity + 1) := by
  have hmatches {s : Span} (hs : s ∈ Span.ofSentence tokens.length) {row : List Constituent}
      (hrow : row ∈ c.rows s rule) : c.Matches rule.rhs s.start s.stop row := by
    have hin := mem_ofSentence.1 hs
    exact (hc.mem_rows_iff hg hr ⟨hin, hin.width_le⟩).1 hrow
  refine sum_length_le_choose (fun s row ↦ boundaries s.start (row.map (·.span)))
    (ofSentence_nodup _) (fun s _ ↦ hc.rows_nodup hg hr s) (fun s hs row hrow ↦ ?_)
    fun s hs row hrow s' hs' row' hrow' he ↦ ?_
  · obtain ⟨hspell, htile, -⟩ := hmatches hs hrow
    refine ⟨?_, htile.boundaries_sorted, fun x hx ↦ ?_⟩
    · rw [boundaries, List.length_cons, List.length_map, List.length_map, Rule.arity, ← hspell,
        List.length_map]
    · exact Nat.lt_succ_of_le ((htile.le_of_mem_boundaries hx).trans (mem_ofSentence.1 hs).2)
  · obtain ⟨hspell, htile, -⟩ := hmatches hs hrow
    obtain ⟨hspell', htile', -⟩ := hmatches hs' hrow'
    obtain ⟨hstart, hstop, hspans⟩ := htile.eq_of_boundaries htile' he
    refine ⟨?_, Constituent.list_ext (hspell.trans hspell'.symm) hspans⟩
    cases s
    cases s'
    exact congrArg₂ Span.mk hstart hstop

theorem sum_length_splits_one_le (harity : 1 < rule.arity) :
    ((Span.ofSentence tokens.length).map fun s ↦ (c.splits rule 1 s).length).sum ≤
      (tokens.length + 1).choose 2 := by
  refine (List.sum_le_card_nsmul _ 1 fun k hk ↦ ?_).trans ?_
  · obtain ⟨s, -, rfl⟩ := List.mem_map.1 hk
    rw [hc.splits_eq hg hr harity]
    split
    · exact length_newSplits_one_le c _ s rule
    · exact Nat.zero_le 1
  · rw [List.length_map, Nat.nsmul_eq_mul, Nat.mul_one]
    exact (length_ofSentence _).le

theorem sum_length_splits_le {dot : Nat} (hdot : 2 ≤ dot) (hlt : dot < rule.arity) :
    ((Span.ofSentence tokens.length).map fun s ↦ (c.splits rule dot s).length).sum ≤
      (tokens.length + 1).choose 3 := by
  obtain ⟨dot, rfl⟩ := Nat.exists_eq_add_of_le' (Nat.le_of_succ_le hdot)
  obtain ⟨category, hcategory⟩ : ∃ category, rule.rhs[dot]? = some category :=
    ⟨_, List.getElem?_eq_getElem (Nat.lt_of_succ_lt hlt)⟩
  -- every later symbol starts strictly inside the span
  have hinside {s : Span} (hs : s ∈ Span.ofSentence tokens.length) {split : Nat}
      (hsplit : split ∈ c.splits rule (dot + 1) s) : s.start < split ∧ split < s.stop := by
    obtain ⟨hstop, -, front, hfront⟩ := (hc.mem_splits_iff hg hr hlt hcategory s
      (mem_ofSentence.1 hs).width_le split).1 hsplit
    have hle := hfront.add_length_le
    rw [List.length_take_of_le (Nat.le_of_lt (Nat.lt_of_succ_lt hlt))] at hle
    omega
  refine sum_length_le_choose (fun s split ↦ [s.start, split, s.stop])
    (ofSentence_nodup _) (fun s _ ↦ (hc.splits_sorted hg hr hlt s).imp Nat.ne_of_lt)
    (fun s hs split hsplit ↦ ?_) fun s _ split _ s' _ split' _ he ↦ ?_
  · obtain ⟨hstart, hstop⟩ := hinside hs hsplit
    have hle := (mem_ofSentence.1 hs).2
    refine ⟨rfl, by simp; omega, ?_⟩
    simp only [List.mem_cons, List.not_mem_nil, or_false, forall_eq_or_imp, forall_eq]
    omega
  · cases s
    cases s'
    simp only [List.cons.injEq, and_true] at he
    obtain ⟨rfl, rfl, rfl⟩ := he
    exact ⟨rfl, rfl⟩

theorem sum_length_places_le (harity : 2 ≤ rule.arity) :
    ((Span.ofSentence tokens.length).map fun s ↦
      ((List.range' 1 (rule.arity - 1)).map fun dot ↦ (c.splits rule dot s).length).sum).sum ≤
      (tokens.length + 1).choose 2 + (rule.arity - 2) * (tokens.length + 1).choose 3 := by
  obtain ⟨k, hk⟩ := Nat.exists_eq_add_of_le' harity
  have hdots : List.range' 1 (rule.arity - 1) = 1 :: List.range' 2 k := by
    rw [hk]
    rfl
  have hlater : ((List.range' 2 k).map fun dot ↦
      ((Span.ofSentence tokens.length).map fun s ↦ (c.splits rule dot s).length).sum).sum ≤
      k * (tokens.length + 1).choose 3 := by
    refine (List.sum_le_card_nsmul _ ((tokens.length + 1).choose 3) fun m hm ↦ ?_).trans ?_
    · obtain ⟨dot, hdot, rfl⟩ := List.mem_map.1 hm
      rw [List.mem_range'_1] at hdot
      exact hc.sum_length_splits_le hg hr hdot.1 (by omega)
    · rw [List.length_map, List.length_range', Nat.nsmul_eq_mul]
  have hfirst := hc.sum_length_splits_one_le hg hr harity
  rw [sum_map_sum_comm, hdots, List.map_cons, List.sum_cons, hk, Nat.add_sub_cancel]
  exact Nat.add_le_add hfirst hlater

end Grown

end Readings.Chart
