import Mathlib.Data.List.Nodup
import Readings.Proofs.Chart.Matching
import Readings.Proofs.Chart.Unary

/-!
What a cell holds before it is sorted: the terminals of its token, the whole matches of the long
rules and the unary rules whose right-hand side is present.
-/

namespace Readings.Chart

open Node Unary

variable {g : Grammar} {tokens : List String} {c : Chart} {s : Span}

/-- The span is a single token that can be read as the category. -/
def IsTerminalAt (g : Grammar) (tokens : List String) (s : Span) (category : String) : Prop :=
  s.width = 1 ∧ ∃ token, tokens[s.start]? = some token ∧ ⟨token, category⟩ ∈ g.lexicon.entries

theorem has_terminalNodes_iff {category : String} :
    Node.has (terminalNodes g tokens s) category ↔ IsTerminalAt g tokens s category := by
  rw [terminalNodes, IsTerminalAt]
  by_cases hw : s.width = 1
  · cases ht : tokens[s.start]? with
    | none => simp [hw]
    | some token =>
      simp [hw, Node.has, List.any_map, Lexicon.mem_categoriesOf.symm, Function.comp_def]
  · simp [hw]

theorem applications_terminalNodes {n : Node} (hn : n ∈ terminalNodes g tokens s) :
    n.applications = [] := by
  rw [terminalNodes] at hn
  split at hn
  · split at hn
    · obtain ⟨_, _, rfl⟩ := List.mem_map.1 hn
      rfl
    · cases hn
  · cases hn

theorem applicationsOf_terminalNodes (category : String) :
    applicationsOf (terminalNodes g tokens s) category = [] := by
  cases h : Node.get? (terminalNodes g tokens s) category with
  | none => simp [applicationsOf, h]
  | some n =>
    obtain ⟨hn, _, happs⟩ := get?_eq_some h
    rw [← happs, applications_terminalNodes hn]

theorem terminalNodes_nodup (hg : g.WellFormed) (s : Span) :
    ((terminalNodes g tokens s).map (·.category)).Nodup := by
  rw [terminalNodes]
  split
  · split
    · rename_i token _
      rw [List.map_map]
      exact (List.map_id _).symm ▸ hg.categoriesOf_nodup token
    · exact List.nodup_nil
  · exact List.nodup_nil

def longApplications (c : Chart) (s : Span) (category : String) (rule : Rule) : List Application :=
  if rule.lhs = category ∧ 2 ≤ rule.arity then (c.wholeMatches rule s).map (⟨rule, ·⟩) else []

theorem mem_longApplications {category : String} {rule : Rule} {a : Application} :
    a ∈ c.longApplications s category rule ↔
      a.rule = rule ∧ rule.lhs = category ∧ 2 ≤ rule.arity ∧
        a.children ∈ c.wholeMatches rule s := by
  obtain ⟨rule', children⟩ := a
  rw [longApplications]
  split
  · rename_i h
    simp only [List.mem_map, Application.mk.injEq]
    constructor
    · intro h
      obtain ⟨row, hrow, hrule, hchildren⟩ := h
      exact ⟨hrule.symm, h.1, h.2, hchildren ▸ hrow⟩
    · intro h
      obtain ⟨hrule, _, _, hrow⟩ := h
      exact ⟨children, hrow, hrule.symm, rfl⟩
  · rename_i h
    simp only [List.not_mem_nil, false_iff]
    exact fun ⟨_, hl, ha, _⟩ ↦ h ⟨hl, ha⟩

theorem longApplications_eq (c : Chart) (s : Span) (category : String) (rule : Rule) :
    c.longApplications s category rule =
      if rule.lhs = category then c.longApplications s rule.lhs rule else [] := by
  by_cases hl : rule.lhs = category <;> simp [longApplications, hl]

/-- A rule that has more symbols than the span has tokens need not be passed over, as it matches
nothing. -/
theorem recordRule_of_two_le (found : List Node × Nat) {rule : Rule} (harity : 2 ≤ rule.arity) :
    c.recordRule s found rule =
      match c.wholeMatches rule s with
      | [] => found
      | sequences =>
        (record rule.lhs (sequences.map (⟨rule, ·⟩)) found.1, found.2 + sequences.length) := by
  rw [recordRule]
  split
  next h =>
    rw [Bool.or_eq_true, decide_eq_true_eq, decide_eq_true_eq] at h
    rw [wholeMatches_eq_nil c (h.resolve_left (Nat.not_lt.2 harity))]
  next => rfl

/-- Recording a rule leaves everything as it was, or records all that the rule matches. -/
theorem recordRule_cases (c : Chart) (s : Span) (found : List Node × Nat) (rule : Rule) :
    (c.longApplications s rule.lhs rule = [] ∧ c.recordRule s found rule = found) ∨
      (c.longApplications s rule.lhs rule ≠ [] ∧
        c.recordRule s found rule =
          (record rule.lhs (c.longApplications s rule.lhs rule) found.1,
            found.2 + (c.longApplications s rule.lhs rule).length)) := by
  rw [longApplications]
  by_cases harity : rule.arity < 2
  · simp [recordRule, harity, Nat.not_le_of_lt harity]
  · rw [recordRule_of_two_le found (Nat.le_of_not_lt harity),
      if_pos ⟨rfl, Nat.le_of_not_lt harity⟩]
    cases c.wholeMatches rule s with
    | nil => exact .inl ⟨rfl, rfl⟩
    | cons row rows => exact .inr ⟨List.cons_ne_nil _ _, by rw [List.length_map]⟩

theorem applicationsOf_recordRule (found : List Node × Nat) (rule : Rule) (category : String) :
    applicationsOf (c.recordRule s found rule).1 category =
      applicationsOf found.1 category ++ c.longApplications s category rule := by
  rw [longApplications_eq]
  obtain ⟨hnone, hsame⟩ | ⟨-, hrecord⟩ := recordRule_cases c s found rule
  · rw [hsame, hnone, ite_self, List.append_nil]
  · rw [hrecord, applicationsOf_record]
    by_cases hl : rule.lhs = category <;> simp [hl]

theorem has_recordRule_iff (found : List Node × Nat) (rule : Rule) (category : String) :
    Node.has (c.recordRule s found rule).1 category ↔
      Node.has found.1 category ∨ c.longApplications s category rule ≠ [] := by
  rw [longApplications_eq]
  obtain ⟨hnone, hsame⟩ | ⟨hsome, hrecord⟩ := recordRule_cases c s found rule
  · rw [hsame, hnone, ite_self]
    simp
  · rw [hrecord, has_record]
    by_cases hl : rule.lhs = category
    · subst hl
      simp [hsome]
    · simp [hl]

theorem applicationsOf_foldl_recordRule (rules : List Rule) (found : List Node × Nat)
    (category : String) :
    applicationsOf (rules.foldl (c.recordRule s) found).1 category =
      applicationsOf found.1 category ++ rules.flatMap (c.longApplications s category) := by
  induction rules generalizing found with
  | nil => simp
  | cons rule rules ih =>
    rw [List.foldl_cons, ih, applicationsOf_recordRule, List.flatMap_cons, List.append_assoc]

theorem has_foldl_recordRule_iff (rules : List Rule) (found : List Node × Nat)
    (category : String) :
    Node.has (rules.foldl (c.recordRule s) found).1 category ↔
      Node.has found.1 category ∨ rules.flatMap (c.longApplications s category) ≠ [] := by
  induction rules generalizing found with
  | nil => simp
  | cons rule rules ih =>
    rw [List.foldl_cons, ih, has_recordRule_iff, List.flatMap_cons]
    simp only [ne_eq, List.append_eq_nil_iff, not_and_or, or_assoc]

theorem foldl_recordRule_nodup (rules : List Rule) {found : List Node × Nat}
    (h : (found.1.map (·.category)).Nodup) :
    (((rules.foldl (c.recordRule s) found).1).map (·.category)).Nodup := by
  induction rules generalizing found with
  | nil => exact h
  | cons rule rules ih =>
    apply ih
    obtain ⟨-, hsame⟩ | ⟨-, hrecord⟩ := recordRule_cases c s found rule
    · rwa [hsame]
    · rw [hrecord]
      exact nodup_record h _ _

theorem applicationsOf_matchedNodes (category : String) :
    applicationsOf (c.matchedNodes g tokens s).1 category =
      g.rules.flatMap (c.longApplications s category) := by
  rw [matchedNodes, applicationsOf_foldl_recordRule, applicationsOf_terminalNodes, List.nil_append]

theorem has_matchedNodes_iff (category : String) :
    Node.has (c.matchedNodes g tokens s).1 category ↔
      IsTerminalAt g tokens s category ∨ g.rules.flatMap (c.longApplications s category) ≠ [] := by
  rw [matchedNodes, has_foldl_recordRule_iff, has_terminalNodes_iff]

/-- Before its closure a cell holds whole matches of long rules only. -/
theorem not_isUnary_of_mem_matchedNodes {category : String} {a : Application}
    (ha : a ∈ applicationsOf (c.matchedNodes g tokens s).1 category) : ¬ a.rule.isUnary := by
  rw [applicationsOf_matchedNodes, List.mem_flatMap] at ha
  obtain ⟨rule, -, ha⟩ := ha
  obtain ⟨rfl, -, harity, -⟩ := mem_longApplications.1 ha
  rw [Rule.isUnary, beq_iff_eq]
  omega

theorem closedNodes_spec (g : Grammar) (tokens : List String) (c : Chart) (s : Span) :
    ∃ fired, Records s (c.matchedNodes g tokens s).1 fired (c.closedNodes g tokens s).1 ∧
      (c.closedNodes g tokens s).2 = fired.length ∧
      ∀ rule, rule ∈ fired ↔ rule ∈ g.rules ∧ Fires (c.closedNodes g tokens s).1 rule :=
  closure_spec s g.rules fun _ _ ↦ not_isUnary_of_mem_matchedNodes

theorem has_closedNodes_iff (category : String) :
    Node.has (c.closedNodes g tokens s).1 category ↔
      IsTerminalAt g tokens s category ∨
        applicationsOf (c.closedNodes g tokens s).1 category ≠ [] := by
  obtain ⟨fired, hrec, -⟩ := closedNodes_spec g tokens c s
  have hunary : (fired.filter (·.lhs = category)).map (application s) ≠ [] ↔
      ∃ rule ∈ fired, rule.lhs = category := by
    simp [List.filter_eq_nil_iff]
  rw [hrec.has_iff, hrec.applicationsOf_eq, has_matchedNodes_iff, applicationsOf_matchedNodes,
    ← hunary]
  simp only [ne_eq, List.append_eq_nil_iff, not_and_or, or_assoc]

theorem closedNodes_nodup (hg : g.WellFormed) (c : Chart) (s : Span) :
    ((c.closedNodes g tokens s).1.map (·.category)).Nodup := by
  obtain ⟨fired, hrec, -⟩ := closedNodes_spec g tokens c s
  exact hrec.nodup (foldl_recordRule_nodup g.rules (terminalNodes_nodup hg s))

/-- The applications of a category are the whole matches of its long rules, and its unary rules
whose right-hand side is present. -/
theorem mem_applicationsOf_closedNodes {category : String} {a : Application} :
    a ∈ applicationsOf (c.closedNodes g tokens s).1 category ↔
      a.rule ∈ g.rules ∧ a.rule.lhs = category ∧
        (2 ≤ a.rule.arity ∧ a.children ∈ c.wholeMatches a.rule s ∨
          Fires (c.closedNodes g tokens s).1 a.rule ∧ a = application s a.rule) := by
  obtain ⟨fired, hrec, -, hfired⟩ := closedNodes_spec g tokens c s
  rw [hrec.applicationsOf_eq, applicationsOf_matchedNodes, List.mem_append, List.mem_flatMap,
    List.mem_map]
  simp only [mem_longApplications, List.mem_filter, hfired, decide_eq_true_eq]
  constructor
  · intro h
    rcases h with ⟨rule, hr, rfl, hl, harity, hrow⟩ | ⟨rule, ⟨⟨hr, hf⟩, hl⟩, rfl⟩
    · exact ⟨hr, hl, .inl ⟨harity, hrow⟩⟩
    · exact ⟨hr, hl, .inr ⟨hf, rfl⟩⟩
  · intro h
    obtain ⟨hr, hl, h⟩ := h
    rcases h with ⟨harity, hrow⟩ | ⟨hf, ha⟩
    · exact .inl ⟨_, hr, rfl, hl, harity, hrow⟩
    · exact .inr ⟨_, ⟨⟨hr, hf⟩, hl⟩, ha.symm⟩

end Readings.Chart
