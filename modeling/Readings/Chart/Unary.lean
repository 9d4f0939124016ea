import Readings.Constituent

/-!
The closure of a cell under unary rules. A unary rule is due when its right-hand side is present and
the rule is not recorded yet for its left-hand side. The rules are passed over in their order, again
and again, and each is recorded that is due, until a pass records nothing; a cycle of unary rules is
recorded like any other.
-/

namespace Readings.Unary

open Node

/-- The rule put to use over the span as a whole. -/
def application (s : Span) (rule : Rule) : Application := ⟨rule, rule.rhs.map (⟨·, s⟩)⟩

def isRecorded (s : Span) (nodes : List Node) (rule : Rule) : Bool :=
  (applicationsOf nodes rule.lhs).contains (application s rule)

def isDue (s : Span) (nodes : List Node) (rule : Rule) : Bool :=
  match rule.rhs with
  | [child] => has nodes child && !isRecorded s nodes rule
  | _ => false

/-- One pass over the rules. What it records is seen by the rules that come later. Gives the nodes
with what was recorded, and the number of applications recorded. -/
def pass (s : Span) : List Rule → List Node → List Node × Nat
  | [], nodes => (nodes, 0)
  | rule :: rest, nodes =>
    if isDue s nodes rule then
      let after := pass s rest (record rule.lhs [application s rule] nodes)
      (after.1, after.2 + 1)
    else pass s rest nodes

section Progress

variable {s : Span} {nodes : List Node} {rules : List Rule}

theorem application_inj {rule rule' : Rule} :
    application s rule = application s rule' ↔ rule = rule' :=
  ⟨congrArg Application.rule, congrArg (application s)⟩

theorem isRecorded_record (nodes : List Node) (first rule : Rule) :
    isRecorded s (record first.lhs [application s first] nodes) rule ↔
      rule = first ∨ isRecorded s nodes rule := by
  simp only [isRecorded, List.contains_iff_mem, applicationsOf_record]
  by_cases hlhs : first.lhs = rule.lhs
  · rw [if_pos hlhs, List.mem_append, List.mem_singleton, application_inj, Or.comm]
  · have hne : rule ≠ first := fun h ↦ hlhs (h ▸ rfl)
    rw [if_neg hlhs, or_iff_right hne]

theorem not_isRecorded_of_isDue {rule : Rule} (h : isDue s nodes rule) :
    ¬ isRecorded s nodes rule := by
  rw [isDue] at h
  split at h
  · simpa using (Bool.and_eq_true_iff.1 h).2
  · cases h

/-- The rules that are still to be recorded, be they due or not. -/
def unrecorded (s : Span) (rules : List Rule) (nodes : List Node) : List Rule :=
  rules.filter (!isRecorded s nodes ·)

theorem length_unrecorded_record_lt {rule : Rule} (hr : rule ∈ rules)
    (hnew : ¬ isRecorded s nodes rule) :
    (unrecorded s rules (record rule.lhs [application s rule] nodes)).length <
      (unrecorded s rules nodes).length := by
  have hfilter : unrecorded s rules (record rule.lhs [application s rule] nodes) =
      (unrecorded s rules nodes).filter (· ≠ rule) := by
    rw [unrecorded, unrecorded, List.filter_filter]
    refine List.filter_congr fun r _ ↦ ?_
    have hiff : isRecorded s (record rule.lhs [application s rule] nodes) r ↔
        r = rule ∨ isRecorded s nodes r := isRecorded_record nodes rule r
    by_cases he : r = rule <;> simp_all
  rw [hfilter, List.length_filter_lt_length_iff_exists]
  exact ⟨rule, List.mem_filter.2 ⟨hr, by simpa using hnew⟩, by simp⟩

/-- Each application that a pass records leaves one rule less to be recorded. -/
theorem pass_add_unrecorded_le {later : List Rule} (h : ∀ rule ∈ later, rule ∈ rules)
    (nodes : List Node) :
    (pass s later nodes).2 + (unrecorded s rules (pass s later nodes).1).length ≤
      (unrecorded s rules nodes).length := by
  induction later generalizing nodes with
  | nil => exact Nat.le_of_eq (Nat.zero_add _)
  | cons rule later ih =>
    obtain ⟨hr, hlater⟩ := List.forall_mem_cons.1 h
    rw [pass]
    split
    · rename_i hdue
      have hrule := length_unrecorded_record_lt hr (not_isRecorded_of_isDue hdue)
      have hrest := ih hlater (record rule.lhs [application s rule] nodes)
      dsimp only
      omega
    · exact ih hlater nodes

end Progress

/-- Passes over the rules until a pass records nothing. Gives the nodes and the number of
applications recorded. -/
def closure (s : Span) (rules : List Rule) (nodes : List Node) : List Node × Nat :=
  let after := pass s rules nodes
  if after.2 = 0 then after
  else
    let closed := closure s rules after.1
    (closed.1, after.2 + closed.2)
termination_by (unrecorded s rules nodes).length
decreasing_by
  rename_i hsteps
  change ¬ (pass s rules nodes).2 = 0 at hsteps
  have hle : (pass s rules nodes).2 + (unrecorded s rules (pass s rules nodes).1).length ≤
      (unrecorded s rules nodes).length := pass_add_unrecorded_le (fun _ hr ↦ hr) nodes
  omega

end Readings.Unary
