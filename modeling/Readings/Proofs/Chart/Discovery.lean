import Readings.Proofs.Chart.Cell

/-!
The order in which the categories of a cell are found. It depends on the terminals of the token and
on which long rules match the span; how they match makes no difference.
-/

namespace Readings

namespace Node

variable {nodes nodes' : List Node}

theorem has_congr (h : nodes.map (·.category) = nodes'.map (·.category)) (c : String) :
    has nodes c = has nodes' c := by
  have hhas (nodes : List Node) : has nodes c = (nodes.map (·.category)).any (· == c) := by
    rw [has, List.any_map]
    rfl
  rw [hhas, hhas, h]

theorem ext_of_category (h : nodes.map (·.category) = nodes'.map (·.category))
    (hsame : ∀ n ∈ nodes, ∀ n' ∈ nodes', n.category = n'.category → n = n') : nodes = nodes' := by
  induction nodes generalizing nodes' with
  | nil => exact (List.map_eq_nil_iff.1 h.symm).symm
  | cons n rest ih =>
    cases nodes' with
    | nil => simp at h
    | cons n' rest' =>
      rw [List.map_cons, List.map_cons, List.cons.injEq] at h
      have hhead := hsame n List.mem_cons_self n' List.mem_cons_self h.1
      have htail := ih h.2 fun m hm m' hm' ↦
        hsame m (List.mem_cons_of_mem n hm) m' (List.mem_cons_of_mem n' hm')
      rw [hhead, htail]

theorem map_category_record_congr (h : nodes.map (·.category) = nodes'.map (·.category))
    (c : String) (as as' : List Application) :
    (record c as nodes).map (·.category) = (record c as' nodes').map (·.category) := by
  rw [map_category_record, map_category_record, has_congr h, h]

end Node

open Node

namespace Unary

variable {s s' : Span} {nodes nodes' : List Node}

/-- The same categories are found so far, and the same rules are recorded. -/
structure Alike (s s' : Span) (nodes nodes' : List Node) : Prop where
  categories : nodes.map (·.category) = nodes'.map (·.category)
  isRecorded_iff : ∀ rule : Rule, rule.isUnary →
    (isRecorded s nodes rule ↔ isRecorded s' nodes' rule)

theorem Alike.isDue_iff (h : Alike s s' nodes nodes') {rule : Rule} :
    isDue s nodes rule ↔ isDue s' nodes' rule := by
  have hfires : Fires nodes rule ↔ Fires nodes' rule := by
    simp only [Fires, has_congr h.categories]
  rw [Unary.isDue_iff, Unary.isDue_iff, hfires]
  exact and_congr_right fun hrule ↦ not_congr (h.isRecorded_iff rule hrule.isUnary)

theorem Alike.record (h : Alike s s' nodes nodes') (rule : Rule) :
    Alike s s' (record rule.lhs [application s rule] nodes)
      (record rule.lhs [application s' rule] nodes') where
  categories := map_category_record_congr h.categories rule.lhs _ _
  isRecorded_iff r hr := by
    rw [isRecorded_record, isRecorded_record, h.isRecorded_iff r hr]

theorem Alike.pass (h : Alike s s' nodes nodes') (rules : List Rule) :
    Alike s s' (pass s rules nodes).1 (pass s' rules nodes').1 ∧
      (pass s rules nodes).2 = (pass s' rules nodes').2 := by
  induction rules generalizing nodes nodes' with
  | nil => exact ⟨h, rfl⟩
  | cons rule rest ih =>
    rw [Unary.pass, Unary.pass]
    by_cases hdue : isDue s nodes rule
    · rw [if_pos hdue, if_pos (h.isDue_iff.1 hdue)]
      exact (ih (h.record rule)).imp_right (congrArg (· + 1))
    · rw [if_neg hdue, if_neg (mt h.isDue_iff.2 hdue)]
      exact ih h

theorem Alike.closure (rules : List Rule) : ∀ {nodes'}, Alike s s' nodes nodes' →
    Alike s s' (closure s rules nodes).1 (closure s' rules nodes').1 := by
  fun_induction Unary.closure s rules nodes with
  | case1 nodes after =>
    rename_i hquiet
    intro nodes' h
    obtain ⟨hafter, hsteps⟩ := h.pass rules
    rw [Unary.closure, if_pos (hsteps ▸ hquiet)]
    exact hafter
  | case2 nodes after hmore closed =>
    rename_i ih
    intro nodes' h
    obtain ⟨hafter, hsteps⟩ := h.pass rules
    rw [Unary.closure, if_neg (hsteps ▸ hmore)]
    exact ih hafter

end Unary

namespace Chart

open Unary

variable {g : Grammar} {tokens tokens' : List String} {c c' : Chart} {s s' : Span}

theorem foldl_recordRule_congr {rules : List Rule}
    (hrules : ∀ rule ∈ rules, 2 ≤ rule.arity →
      (c.wholeMatches rule s = [] ↔ c'.wholeMatches rule s' = []))
    {found found' : List Node × Nat}
    (h : found.1.map (·.category) = found'.1.map (·.category)) :
    (rules.foldl (c.recordRule s) found).1.map (·.category) =
      (rules.foldl (c'.recordRule s') found').1.map (·.category) := by
  induction rules generalizing found found' with
  | nil => exact h
  | cons rule rules ih =>
    obtain ⟨hrule, hrest⟩ := List.forall_mem_cons.1 hrules
    apply ih hrest
    by_cases harity : rule.arity < 2
    · simpa [recordRule, harity] using h
    · have hiff := hrule (Nat.le_of_not_lt harity)
      rw [recordRule_of_two_le found (Nat.le_of_not_lt harity),
        recordRule_of_two_le found' (Nat.le_of_not_lt harity)]
      cases hrows : c.wholeMatches rule s with
      | nil =>
        rw [hiff.1 hrows]
        exact h
      | cons row rows =>
        cases hrows' : c'.wholeMatches rule s' with
        | nil =>
          rw [hiff.2 hrows'] at hrows
          cases hrows
        | cons row' rows' => exact map_category_record_congr h rule.lhs _ _

/-- Two cells list the same categories in the same order if they start from the same terminals and
if the same long rules match. -/
theorem map_category_cellOver
    (hterminals : terminalNodes g tokens s = terminalNodes g tokens' s')
    (hrules : ∀ rule ∈ g.rules, 2 ≤ rule.arity →
      (c.wholeMatches rule s = [] ↔ c'.wholeMatches rule s' = [])) :
    (cellOver g tokens c s).nodes.map (·.category) =
      (cellOver g tokens' c' s').nodes.map (·.category) := by
  rw [nodes_cellOver, nodes_cellOver, List.map_map, List.map_map]
  refine (Alike.closure _ ⟨?_, fun rule hunary ↦ ?_⟩).categories
  · apply foldl_recordRule_congr hrules
    rw [hterminals]
  · exact iff_of_false
      (not_isRecorded_of_isUnary (fun _ _ ↦ not_isUnary_of_mem_matchedNodes) hunary)
      (not_isRecorded_of_isUnary (fun _ _ ↦ not_isUnary_of_mem_matchedNodes) hunary)

end Chart

end Readings
