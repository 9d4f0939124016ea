import Mathlib.Algebra.BigOperators.Group.List.Basic
import Mathlib.Algebra.Order.Ring.Nat
import Readings.Proofs.Chart.Applications
import Readings.Proofs.Chart.Recorded

/-!
What a grown chart costs. Each cell is charged rule by rule: for every row that the rule matches
over the span, and for every place that is kept for a beginning of the rule. The charge of a rule
depends on what is in the chart and not on the other rules.
-/

namespace Readings.Chart

open Node Unary

variable {g : Grammar} {tokens : List String} {width : Nat} {c : Chart} {s : Span}

/-- The rows of constituents that the right-hand side of a rule matches over a span. -/
def rows (c : Chart) (s : Span) (rule : Rule) : List (List Constituent) :=
  if rule.isUnary then
    if rule.rhs.all fun category ↦ c.has ⟨category, s⟩ then [rule.rhs.map (⟨·, s⟩)] else []
  else c.wholeMatches rule s

def charge (c : Chart) (s : Span) (rule : Rule) : Nat :=
  (c.rows s rule).length +
    ((List.range' 1 (rule.arity - 1)).map fun dot ↦ (c.splits rule dot s).length).sum

theorem isUnary_iff {rule : Rule} : rule.isUnary ↔ ∃ child, rule.rhs = [child] := by
  rw [Rule.isUnary, Rule.arity, beq_iff_eq, List.length_eq_one_iff]

theorem length_rows_of_rhs_eq {rule : Rule} {child : String} (hrhs : rule.rhs = [child]) :
    (c.rows s rule).length = if c.has ⟨child, s⟩ then 1 else 0 := by
  rw [rows, if_pos (isUnary_iff.2 ⟨child, hrhs⟩), hrhs]
  by_cases hchild : c.has ⟨child, s⟩ <;> simp [hchild]

theorem steps_foldl_recordRule {rules : List Rule} (hpos : ∀ rule ∈ rules, 0 < rule.arity)
    (found : List Node × Nat) :
    (rules.foldl (c.recordRule s) found).2 =
      found.2 + ((rules.filter (!·.isUnary)).map fun rule ↦ (c.rows s rule).length).sum := by
  induction rules generalizing found with
  | nil => rfl
  | cons rule rules ih =>
    obtain ⟨hrule, hrules⟩ := List.forall_mem_cons.1 hpos
    rw [List.foldl_cons, ih hrules, List.filter_cons]
    cases hunary : rule.isUnary with
    | true =>
      have hlt : rule.arity < 2 := by
        rw [Rule.isUnary, beq_iff_eq] at hunary
        omega
      simp [recordRule, hlt]
    | false =>
      have harity : 2 ≤ rule.arity := by
        rw [Rule.isUnary, beq_eq_false_iff_ne] at hunary
        omega
      have hrows : c.rows s rule = c.wholeMatches rule s := by simp [rows, hunary]
      simp only [recordRule_of_two_le found harity, Bool.not_false, if_true, List.map_cons,
        List.sum_cons, hrows, ← Nat.add_assoc]
      cases c.wholeMatches rule s <;> rfl

theorem steps_matchedNodes (hg : g.WellFormed) (c : Chart) (s : Span) :
    (c.matchedNodes g tokens s).2 =
      ((g.rules.filter (!·.isUnary)).map fun rule ↦ (c.rows s rule).length).sum := by
  rw [matchedNodes, steps_foldl_recordRule fun rule ↦ hg.arity_pos, Nat.zero_add]

namespace Grown

theorem mem_rows_iff (hg : g.WellFormed) (hc : Grown g tokens width c) {rule : Rule}
    (hr : rule ∈ g.rules) (hs : s.InSentence tokens.length ∧ s.width ≤ width)
    {row : List Constituent} :
    row ∈ c.rows s rule ↔ c.Matches rule.rhs s.start s.stop row := by
  rw [rows]
  split
  · rename_i hunary
    obtain ⟨child, hrhs⟩ := isUnary_iff.1 hunary
    rw [hrhs, matches_singleton_iff, and_iff_right_of_imp fun _ ↦ hs.1.1]
    by_cases hchild : c.has ⟨child, s⟩ <;> simp [hchild]
  · rename_i hunary
    have hpos := hg.arity_pos hr
    rw [Rule.isUnary, beq_iff_eq] at hunary
    exact hc.mem_wholeMatches_iff hg hr (by omega) (by omega)

theorem rows_nodup (hg : g.WellFormed) (hc : Grown g tokens width c) {rule : Rule}
    (hr : rule ∈ g.rules) (s : Span) : (c.rows s rule).Nodup := by
  rw [rows]
  split
  · split
    · exact List.nodup_singleton _
    · exact List.nodup_nil
  · exact wholeMatches_nodup hg hc hr s

theorem steps_closedNodes (hg : g.WellFormed) (hc : Grown g tokens width c)
    (hs : s.InSentence tokens.length ∧ s.width ≤ width) :
    (c.closedNodes g tokens s).2 =
      ((g.rules.filter (·.isUnary)).map fun rule ↦ (c.rows s rule).length).sum := by
  obtain ⟨fired, hrec, hsteps, hfired⟩ := closedNodes_spec g tokens c s
  have hperm : fired.Perm ((g.rules.filter (·.isUnary)).filter (· ∈ fired)) := by
    refine (List.perm_ext_iff_of_nodup hrec.fired_nodup ((hg.rules_nodup.filter _).filter _)).2 ?_
    intro rule
    rw [List.mem_filter, List.mem_filter, decide_eq_true_eq]
    refine (and_iff_right_of_imp fun hr ↦ ?_).symm
    exact ⟨((hfired rule).1 hr).1, (hrec.fires_of_mem hr).isUnary⟩
  have hhas (child : String) : c.has ⟨child, s⟩ ↔ Node.has (c.closedNodes g tokens s).1 child := by
    rw [hc.has_iff, and_iff_right hs]
  have hone : ∀ rule ∈ fired, (c.rows s rule).length = 1 := by
    intro rule hr
    obtain ⟨child, hrhs, hchild⟩ := hrec.fires_of_mem hr
    rw [length_rows_of_rhs_eq hrhs, if_pos ((hhas child).2 hchild)]
  have hzero : ∀ rule ∈ (g.rules.filter (·.isUnary)).filter fun rule ↦ !decide (rule ∈ fired),
      (c.rows s rule).length = 0 := by
    intro rule hr
    obtain ⟨hr, hnot⟩ := List.mem_filter.1 hr
    obtain ⟨hr, hunary⟩ := List.mem_filter.1 hr
    obtain ⟨child, hrhs⟩ := isUnary_iff.1 hunary
    rw [length_rows_of_rhs_eq hrhs, if_neg]
    intro hchild
    have hmem := (hfired rule).2 ⟨hr, child, hrhs, (hhas child).1 hchild⟩
    simp [hmem] at hnot
  rw [← ((List.filter_append_perm (· ∈ fired) _).map _).sum_eq, List.map_append, List.sum_append,
    ← (hperm.map _).sum_eq, List.map_congr_left hone, List.map_congr_left hzero, hsteps]
  simp

theorem applicationCount_cell (hg : g.WellFormed) (hc : Grown g tokens width c)
    (hs : s.InSentence tokens.length ∧ s.width ≤ width) :
    applicationCount (c.cell s).nodes = (g.rules.map fun rule ↦ (c.rows s rule).length).sum := by
  have hrows := (List.filter_append_perm (·.isUnary) g.rules).map fun rule ↦ (c.rows s rule).length
  rw [List.map_append] at hrows
  rw [hc s, if_pos hs, nodes_cellOver, applicationCount_map_sort, applicationCount_closedNodes,
    steps_matchedNodes hg, hc.steps_closedNodes hg hs, ← hrows.sum_eq, List.sum_append,
    Nat.add_comm]

/-- A beginning of a rule that matches nowhere has no places, whether or not it is tried. -/
theorem flatMap_partialsOf (c : Chart) (nodes : List Node) (hs : 0 < s.width) (rule : Rule) :
    (c.partialsOf nodes s rule).flatMap (·.2) =
      (List.range' 1 (rule.arity - 1)).flatMap (c.newSplits nodes s rule) := by
  have hkept : (c.partialsOf nodes s rule).flatMap (·.2) =
      (List.range' 1 (min rule.arity (s.width + 1) - 1)).flatMap (c.newSplits nodes s rule) := by
    rw [partialsOf, flatMap_filter_of_eq_nil, List.flatMap_map]
    intro entry _ hempty
    simpa using hempty
  have hrange : List.range' 1 (rule.arity - 1) =
      List.range' 1 (min rule.arity (s.width + 1) - 1) ++
        List.range' (s.width + 1) (rule.arity - (s.width + 1)) := by
    obtain hle | hlt := Nat.le_total rule.arity (s.width + 1)
    · rw [Nat.min_eq_left hle, Nat.sub_eq_zero_of_le hle, List.range'_zero, List.append_nil]
    · have hsum : rule.arity - 1 = s.width + (rule.arity - (s.width + 1)) := by omega
      rw [Nat.min_eq_right hlt, Nat.add_sub_cancel, hsum, Nat.add_comm s.width 1,
        List.range'_append_1]
  have hwide : (List.range' (s.width + 1) (rule.arity - (s.width + 1))).flatMap
      (c.newSplits nodes s rule) = [] := by
    apply List.flatMap_eq_nil_iff.2
    intro dot hdot
    exact newSplits_eq_nil c nodes hs rule (List.mem_range'_1.1 hdot).1
  rw [hkept, hrange, List.flatMap_append, hwide, List.append_nil]

theorem placeCount_cell (hg : g.WellFormed) (hc : Grown g tokens width c)
    (hs : s.InSentence tokens.length ∧ s.width ≤ width) :
    (c.cell s).placeCount = (g.rules.map fun rule ↦
      ((List.range' 1 (rule.arity - 1)).map fun dot ↦ (c.splits rule dot s).length).sum).sum := by
  rw [hc s, if_pos hs, Cell.placeCount, partials_cellOver, List.flatMap_assoc, List.length_flatMap]
  refine congrArg List.sum (List.map_congr_left fun rule hr ↦ ?_)
  rw [flatMap_partialsOf c _ hs.1.width_pos rule, List.length_flatMap]
  refine congrArg List.sum (List.map_congr_left fun dot hdot ↦ ?_)
  rw [List.mem_range'_1] at hdot
  obtain ⟨dot, rfl⟩ := Nat.exists_eq_add_of_le' hdot.1
  rw [hc.splits_eq hg hr (by omega), if_pos hs]

theorem steps_cell (hg : g.WellFormed) (hc : Grown g tokens width c)
    (hs : s.InSentence tokens.length ∧ s.width ≤ width) :
    (c.cell s).steps = (g.rules.map (c.charge s)).sum := by
  rw [hc.steps_eq_holdings, Cell.holdings, hc.applicationCount_cell hg hs,
    hc.placeCount_cell hg hs, ← List.sum_map_add]
  rfl

section Charge

variable {g' : Grammar} {c' : Chart} (hg : g.WellFormed) (hg' : g'.WellFormed)
  (hc : Grown g tokens width c) (hc' : Grown g' tokens width c') (hsame : ∀ k, c.has k ↔ c'.has k)
include hg hg' hc hc' hsame

/-- The same constituents are charged for in the same way, whatever else the grammars say. -/
theorem charge_eq {rule rule' : Rule} (hr : rule ∈ g.rules) (hr' : rule' ∈ g'.rules)
    (hrule : rule.toProduction = rule'.toProduction)
    (hs : s.InSentence tokens.length ∧ s.width ≤ width) :
    c.charge s rule = c'.charge s rule' := by
  have hmatches {categories : List String} {start stop : Nat} {row : List Constituent} :
      c.Matches categories start stop row ↔ c'.Matches categories start stop row :=
    ⟨Matches.mono fun k ↦ (hsame k).1, Matches.mono fun k ↦ (hsame k).2⟩
  have hrhs : rule.rhs = rule'.rhs := congrArg Production.rhs hrule
  have harity : rule.arity = rule'.arity := congrArg List.length hrhs
  have hrows : (c.rows s rule).Perm (c'.rows s rule') := by
    refine (List.perm_ext_iff_of_nodup (hc.rows_nodup hg hr s) (hc'.rows_nodup hg' hr' s)).2 ?_
    intro row
    rw [hc.mem_rows_iff hg hr hs, hc'.mem_rows_iff hg' hr' hs, hmatches, hrhs]
  have hsplits : ∀ dot ∈ List.range' 1 (rule.arity - 1),
      (c.splits rule dot s).length = (c'.splits rule' dot s).length := by
    intro dot hdot
    rw [List.mem_range'_1] at hdot
    obtain ⟨dot, rfl⟩ := Nat.exists_eq_add_of_le' hdot.1
    have hlt : dot + 1 < rule.arity := by omega
    have hlt' : dot + 1 < rule'.arity := harity ▸ hlt
    obtain ⟨category, hcategory⟩ : ∃ category, rule.rhs[dot]? = some category :=
      ⟨_, List.getElem?_eq_getElem (Nat.lt_of_succ_lt hlt)⟩
    have hnodup := (hc.splits_sorted hg hr hlt s).imp Nat.ne_of_lt
    have hnodup' := (hc'.splits_sorted hg' hr' hlt' s).imp Nat.ne_of_lt
    refine ((List.perm_ext_iff_of_nodup hnodup hnodup').2 fun split ↦ ?_).length_eq
    rw [hc.mem_splits_iff hg hr hlt hcategory s hs.2,
      hc'.mem_splits_iff hg' hr' hlt' (hrhs ▸ hcategory) s hs.2]
    simp only [hsame, hmatches, hrhs]
  rw [charge, charge, hrows.length_eq, List.map_congr_left hsplits, harity]

end Charge

end Grown

theorem steps_foldl_insert (cells : List (Span × Cell)) (c : Chart) :
    (cells.foldl (fun c p ↦ c.insert p.1 p.2) c).steps =
      c.steps + (cells.map (·.2.steps)).sum := by
  induction cells generalizing c with
  | nil => rfl
  | cons p cells ih =>
    rw [List.foldl_cons, ih, steps_insert, List.map_cons, List.sum_cons, Nat.add_assoc]

/-- The chart of each width costs what the cells of the whole chart up to this width do. -/
theorem steps_upTo (w : Nat) :
    (upTo g tokens w).steps =
      (((List.range' 1 w).flatMap (Span.ofSentenceWidth tokens.length)).map
        fun s ↦ ((upTo g tokens tokens.length).cell s).steps).sum := by
  induction w with
  | zero => rfl
  | succ w ih =>
    rw [upTo, extend, steps_foldl_insert, ih, List.range'_concat, List.flatMap_append,
      List.map_append, List.sum_append, List.flatMap_singleton, List.map_map, Nat.one_mul,
      Nat.add_comm 1 w]
    refine congrArg (_ + ·) (congrArg List.sum (List.map_congr_left fun s hs ↦ ?_))
    obtain ⟨hstop, hstart⟩ := Span.mem_ofSentenceWidth.1 hs
    have hwidth : s.width = w + 1 := by
      rw [Span.width]
      omega
    have hin : s.InSentence tokens.length := ⟨by omega, by omega⟩
    rw [cell_upTo, if_pos ⟨hin, hin.width_le⟩, hwidth]
    rfl

end Readings.Chart
