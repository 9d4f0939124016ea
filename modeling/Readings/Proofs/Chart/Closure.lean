import Mathlib.Order.Bounds.Defs
import Readings.Proofs.Chart.Recorded

/-!
The closure of a cell as a least fixpoint. The passes over the unary rules come to an end after no
more passes than there are rules; what is present then is the least that holds what was there and is
closed under the rules. Each rule whose right-hand side is present has been recorded once, and a
category that is new was found through one that was there before it.
-/

namespace Readings

namespace Unary

open Node

/-- The sets of categories that hold those of the nodes and, with the right-hand side of a unary
rule, its left-hand side. -/
def closedSets (g : Grammar) (nodes : List Node) : Set (Set String) :=
  {S | (∀ c, has nodes c → c ∈ S) ∧
    ∀ rule ∈ g.rules, ∀ child, rule.rhs = [child] → child ∈ S → rule.lhs ∈ S}

/-- The nodes after a number of passes. -/
def passes (s : Span) (rules : List Rule) (n : Nat) (nodes : List Node) : List Node :=
  (fun nodes ↦ (pass s rules nodes).1)^[n] nodes

/-- So many passes record something, and the next one records nothing. -/
structure SettlesAfter (n : Nat) (s : Span) (rules : List Rule) (nodes closed : List Node) :
    Prop where
  passes_eq : passes s rules n nodes = closed
  busy : ∀ i < n, (pass s rules (passes s rules i nodes)).2 ≠ 0
  quiet : pass s rules closed = (closed, 0)

/-- One category was found before the other; nodes stand in the order in which they are found. -/
def FoundBefore (nodes : List Node) (child c : String) : Prop :=
  ∃ earlier, child ∈ earlier ∧ earlier ++ [c] <+: nodes.map (·.category)

/-- What is there once the nodes of a span are closed under the unary rules of a grammar, and how
many steps this takes. -/
structure ClosesTo (g : Grammar) (s : Span) (nodes closed : List Node) (steps : Nat) : Prop where
  settles : ∃ n ≤ (g.rules.filter (·.isUnary)).length,
    SettlesAfter n s (g.rules.filter (·.isUnary)) nodes closed
  isLeast : IsLeast (closedSets g nodes) {c | has closed c}
  nodup : (closed.map (·.category)).Nodup
  once : ∀ rule ∈ g.rules, Fires closed rule →
    (applicationsOf closed rule.lhs).filter (·.rule = rule) = [application s rule]
  /-- What was recorded stays, and what is added is for the unary rules. -/
  added : ∀ c, ∃ added, applicationsOf closed c = applicationsOf nodes c ++ added ∧
    added.Nodup ∧ ∀ a, a ∈ added ↔
      ∃ rule ∈ g.rules, Fires closed rule ∧ rule.lhs = c ∧ application s rule = a
  foundBefore : ∀ c, has closed c → ¬ has nodes c → ∃ rule ∈ g.rules, ∃ child,
    rule.rhs = [child] ∧ rule.lhs = c ∧ application s rule ∈ applicationsOf closed c ∧
      FoundBefore closed child c
  steps_eq : applicationCount closed = applicationCount nodes + steps

section Passes

variable {s : Span} {rules : List Rule} {nodes : List Node}

theorem passes_succ (s : Span) (rules : List Rule) (n : Nat) (nodes : List Node) :
    passes s rules (n + 1) nodes = passes s rules n (pass s rules nodes).1 :=
  Function.iterate_succ_apply _ _ _

theorem closure_settles (s : Span) (rules : List Rule) (nodes : List Node) :
    ∃ n ≤ (unrecorded s rules nodes).length,
      SettlesAfter n s rules nodes (closure s rules nodes).1 := by
  fun_induction closure s rules nodes with
  | case1 nodes after hquiet =>
    obtain ⟨hpass, -⟩ := pass_eq_of_quiet hquiet
    have hafter : after.1 = nodes := congrArg Prod.fst hpass
    rw [hafter]
    exact ⟨0, Nat.zero_le _, rfl, fun _ hi ↦ absurd hi (Nat.not_lt_zero _), hpass⟩
  | case2 nodes after hmore closed ih =>
    obtain ⟨n, hn, hclosed, hbusy, hpass⟩ := ih
    have hle : after.2 + (unrecorded s rules after.1).length ≤ (unrecorded s rules nodes).length :=
      pass_add_unrecorded_le (fun _ hr ↦ hr) nodes
    refine ⟨n + 1, by omega, (passes_succ ..).trans hclosed, fun i hi ↦ ?_, hpass⟩
    cases i with
    | zero => exact hmore
    | succ i =>
      rw [passes_succ]
      exact hbusy i (Nat.lt_of_succ_lt_succ hi)

end Passes

namespace Records

variable {s : Span} {nodes nodes' : List Node} {fired : List Rule}

theorem map_category_prefix (h : Records s nodes fired nodes') :
    nodes.map (·.category) <+: nodes'.map (·.category) := by
  induction h with
  | nil => exact List.prefix_refl _
  | cons _ _ _ ih => exact (map_category_prefix_record _ _ _).trans ih

/-- A category that is new is the head of a rule whose right-hand side was there when the rule was
recorded. -/
theorem exists_foundBefore (h : Records s nodes fired nodes') {c : String} (hc : has nodes' c)
    (hnew : ¬ has nodes c) :
    ∃ rule ∈ fired, ∃ child, rule.rhs = [child] ∧ rule.lhs = c ∧ FoundBefore nodes' child c := by
  induction h with
  | nil => exact absurd hc hnew
  | @cons nodes nodes' rule fired fires _ tail ih =>
    by_cases hrule : rule.lhs = c
    · subst hrule
      obtain ⟨child, hrhs, hchild⟩ := fires
      refine ⟨rule, List.mem_cons_self, child, hrhs, rfl, nodes.map (·.category), ?_, ?_⟩
      · obtain ⟨n, hn, rfl⟩ := Node.has_iff.1 hchild
        exact List.mem_map_of_mem hn
      · have hprefix := tail.map_category_prefix
        rwa [map_category_record, if_neg hnew] at hprefix
    · have hnew' : ¬ has (record rule.lhs [application s rule] nodes) c := by
        simp [has_record, hrule, hnew]
      obtain ⟨r, hr, hfound⟩ := ih hc hnew'
      exact ⟨r, List.mem_cons_of_mem _ hr, hfound⟩

end Records

section Closure

variable {g : Grammar} {s : Span} {nodes closed : List Node} {fired : List Rule}
  (hfired : ∀ rule, rule ∈ fired ↔ rule ∈ g.rules ∧ Fires closed rule)
include hfired

theorem mem_added_iff {c : String} {a : Application} :
    a ∈ (fired.filter (·.lhs = c)).map (application s) ↔
      ∃ rule ∈ g.rules, Fires closed rule ∧ rule.lhs = c ∧ application s rule = a := by
  simp only [List.mem_map, List.mem_filter, hfired, decide_eq_true_eq, and_assoc]

variable (hrec : Records s nodes fired closed)
include hrec

theorem isLeast_of_records : IsLeast (closedSets g nodes) {c | has closed c} := by
  constructor
  · refine ⟨fun c hc ↦ (hrec.has_iff c).2 (.inl hc), fun rule hr child hrhs hchild ↦ ?_⟩
    exact (hrec.has_iff _).2 (.inr ⟨rule, (hfired rule).2 ⟨hr, child, hrhs, hchild⟩, rfl⟩)
  · intro S hS
    exact hrec.has_induction hS.1 fun rule hr ↦ hS.2 rule ((hfired rule).1 hr).1

theorem filter_rule_eq (h : ∀ c, ∀ a ∈ applicationsOf nodes c, ¬ a.rule.isUnary) {rule : Rule}
    (hr : rule ∈ g.rules) (hfires : Fires closed rule) :
    (applicationsOf closed rule.lhs).filter (·.rule = rule) = [application s rule] := by
  have hmem : rule ∈ fired := (hfired rule).2 ⟨hr, hfires⟩
  have hold : (applicationsOf nodes rule.lhs).filter (·.rule = rule) = [] := by
    refine List.filter_eq_nil_iff.2 fun a ha hrule ↦ h _ a ha ?_
    rw [of_decide_eq_true hrule]
    exact hfires.isUnary
  have hone : (fired.filter (·.lhs = rule.lhs)).filter (· = rule) = [rule] := by
    rw [List.filter_eq, List.count_eq_one_of_mem (hrec.fired_nodup.filter _)]
    · rfl
    · exact List.mem_filter.2 ⟨hmem, by simp⟩
  rw [hrec.applicationsOf_eq, List.filter_append, hold, List.nil_append, List.filter_map]
  exact congrArg (List.map (application s)) hone

end Closure

/-- Whatever the grammar and the span: if no unary rule was recorded before, passing over the unary
rules ends. What is there then is the least that is closed under them, each that applies has been
recorded once, and this is what is counted. -/
theorem closure_exact (g : Grammar) (s : Span) (nodes : List Node)
    (hnodup : (nodes.map (·.category)).Nodup)
    (hlong : ∀ n ∈ nodes, ∀ a ∈ n.applications, ¬ a.rule.isUnary) :
    ClosesTo g s nodes (closure s (g.rules.filter (·.isUnary)) nodes).1
      (closure s (g.rules.filter (·.isUnary)) nodes).2 := by
  have hlong' : ∀ c, ∀ a ∈ applicationsOf nodes c, ¬ a.rule.isUnary := fun c a ha ↦ by
    obtain ⟨n, hn, ha⟩ := exists_of_mem_applicationsOf ha
    exact hlong n hn a ha
  obtain ⟨fired, hrec, hsteps, hfired⟩ := closure_spec s g.rules hlong'
  obtain ⟨n, hn, hsettles⟩ := closure_settles s (g.rules.filter (·.isUnary)) nodes
  constructor
  · exact ⟨n, hn.trans (List.length_filter_le _ _), hsettles⟩
  · exact isLeast_of_records hfired hrec
  · exact hrec.nodup hnodup
  · exact fun rule ↦ filter_rule_eq hfired hrec hlong'
  · intro c
    refine ⟨_, hrec.applicationsOf_eq c, ?_, fun _ ↦ mem_added_iff hfired⟩
    exact (hrec.fired_nodup.filter _).map fun _ _ ↦ application_inj.1
  · intro c hc hnew
    obtain ⟨rule, hr, child, hrhs, hlhs, hbefore⟩ := hrec.exists_foundBefore hc hnew
    obtain ⟨hmem, hfires⟩ := (hfired rule).1 hr
    refine ⟨rule, hmem, child, hrhs, hlhs, ?_, hbefore⟩
    rw [hrec.applicationsOf_eq]
    exact List.mem_append_right _ ((mem_added_iff hfired).2 ⟨rule, hmem, hfires, hlhs, rfl⟩)
  · rw [hrec.applicationCount_eq, hsteps]

/-- `S` brings in `A`, and a second pass finds that `S` rewrites to it. -/
theorem closure_exact_looping :
    let rules := Grammar.looping.rules.filter (·.isUnary)
    let long : Application := ⟨⟨⟨"S", ["S", "S"]⟩, 0⟩, [⟨"S", ⟨0, 1⟩⟩, ⟨"S", ⟨1, 2⟩⟩]⟩
    let nodes : List Node := [⟨"S", [long]⟩]
    (nodes.map (·.category)).Nodup ∧ (∀ n ∈ nodes, ∀ a ∈ n.applications, ¬ a.rule.isUnary) ∧
      closure ⟨0, 2⟩ rules nodes =
        ([⟨"S", [long, ⟨⟨⟨"S", ["A"]⟩, 1⟩, [⟨"A", ⟨0, 2⟩⟩]⟩]⟩,
          ⟨"A", [⟨⟨⟨"A", ["S"]⟩, 2⟩, [⟨"S", ⟨0, 2⟩⟩]⟩]⟩], 2) ∧
      ClosesTo Grammar.looping ⟨0, 2⟩ nodes (closure ⟨0, 2⟩ rules nodes).1
        (closure ⟨0, 2⟩ rules nodes).2 :=
  ⟨by decide, by decide, by decide +kernel, closure_exact _ _ _ (by decide) (by decide)⟩

end Unary

end Readings
