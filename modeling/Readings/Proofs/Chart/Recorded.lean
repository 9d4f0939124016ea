import Mathlib.Algebra.BigOperators.Group.List.Basic
import Mathlib.Algebra.Order.Ring.Nat
import Readings.Proofs.Chart.Cell

/-!
What is charged for is kept: a cell takes one step for each application of its nodes and one for
each place that it stores for a partial match, and no other steps.
-/

namespace Readings

namespace Node

def applicationCount (nodes : List Node) : Nat := (nodes.map (·.applications.length)).sum

theorem applicationCount_eq_zero {nodes : List Node} (h : ∀ n ∈ nodes, n.applications = []) :
    applicationCount nodes = 0 := by
  refine List.sum_eq_zero fun k hk ↦ ?_
  obtain ⟨n, hn, rfl⟩ := List.mem_map.1 hk
  exact List.length_eq_zero_iff.2 (h n hn)

theorem applicationCount_record (nodes : List Node) (c : String) (as : List Application) :
    applicationCount (record c as nodes) = applicationCount nodes + as.length := by
  induction nodes with
  | nil => simp [record, applicationCount]
  | cons n rest ih =>
    simp only [applicationCount] at ih ⊢
    rw [record]
    split
    · simp only [List.map_cons, List.sum_cons, List.length_append]
      omega
    · simp only [List.map_cons, List.sum_cons, ih]
      omega

theorem applicationCount_map_sort (nodes : List Node) :
    applicationCount (nodes.map sort) = applicationCount nodes := by
  simp [applicationCount, sort, Function.comp_def]

end Node

open Node

theorem Unary.Records.applicationCount_eq {s : Span} {nodes nodes' : List Node} {fired : List Rule}
    (h : Records s nodes fired nodes') :
    applicationCount nodes' = applicationCount nodes + fired.length := by
  induction h with
  | nil => rfl
  | cons _ _ _ ih =>
    rw [ih, applicationCount_record, List.length_singleton, List.length_cons, Nat.add_assoc,
      Nat.add_comm 1]

namespace Cell

def placeCount (c : Cell) : Nat := (c.partials.flatMap (·.2)).length

def holdings (c : Cell) : Nat := applicationCount c.nodes + c.placeCount

end Cell

namespace Chart

variable {g : Grammar} {tokens : List String}

theorem applicationCount_recordRule (c : Chart) (s : Span) {found : List Node × Nat} (rule : Rule)
    (h : applicationCount found.1 = found.2) :
    applicationCount (c.recordRule s found rule).1 = (c.recordRule s found rule).2 := by
  obtain ⟨-, hsame⟩ | ⟨-, hrecord⟩ := recordRule_cases c s found rule
  · rwa [hsame]
  · rw [hrecord, applicationCount_record, h]

theorem applicationCount_matchedNodes (c : Chart) (s : Span) :
    applicationCount (c.matchedNodes g tokens s).1 = (c.matchedNodes g tokens s).2 := by
  rw [matchedNodes]
  refine List.foldlRecOn g.rules (c.recordRule s)
    (motive := fun found ↦ applicationCount found.1 = found.2) ?_ fun found h rule _ ↦ ?_
  · exact applicationCount_eq_zero fun n ↦ applications_terminalNodes
  · exact applicationCount_recordRule c s rule h

theorem applicationCount_closedNodes (c : Chart) (s : Span) :
    applicationCount (c.closedNodes g tokens s).1 =
      (c.matchedNodes g tokens s).2 + (c.closedNodes g tokens s).2 := by
  obtain ⟨fired, hrec, hsteps, -⟩ := closedNodes_spec g tokens c s
  rw [hrec.applicationCount_eq, applicationCount_matchedNodes, hsteps]

theorem steps_cellOver (c : Chart) (s : Span) :
    (cellOver g tokens c s).steps = (cellOver g tokens c s).holdings := by
  have happlications : applicationCount (cellOver g tokens c s).nodes =
      (c.matchedNodes g tokens s).2 + (c.closedNodes g tokens s).2 := by
    rw [nodes_cellOver, applicationCount_map_sort, applicationCount_closedNodes]
  rw [Cell.holdings, happlications]
  rfl

theorem Grown.steps_eq_holdings {width : Nat} {c : Chart} (hc : Grown g tokens width c) (s : Span) :
    (c.cell s).steps = (c.cell s).holdings := by
  rw [hc s]
  split
  · exact steps_cellOver c s
  · rfl

end Chart

end Readings
