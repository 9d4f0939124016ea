import Mathlib.Algebra.Order.BigOperators.Group.List
import Mathlib.Data.List.Flatten
import Readings.Proofs.Chart.Steps
import Readings.Proofs.Forest.Parsing

/-!
What a limit on steps does to an enumeration. The forest that is found without a limit tells by
itself which limits it can be found under, and where an enumeration under a smaller limit gives up.
-/

namespace Readings

open Readings.Span Grammar

namespace Forest

/-- How much there is to be charged for in the cells of at most some width: one step for each
application and one for each place that is stored for a partial match. -/
def cost (f : Forest) (width : Nat) : Nat :=
  (((List.range' 1 width).flatMap (ofSentenceWidth f.tokens.length)).map fun s ↦
    (f.chart.cell s).holdings).sum

def placeCount (f : Forest) : Nat :=
  ((ofSentence f.tokens.length).map fun s ↦ (f.chart.cell s).placeCount).sum

/-- What becomes of an enumeration under each limit, if it finds this forest without a limit. The
cost of each width is compared with the limit before the next width is begun, and the whole cost
once more in the end. -/
structure BudgetLaw (f : Forest) (run : Budget → Except EnumerationError Forest) : Prop where
  cost_zero : f.cost 0 = 0
  cost_whole : f.cost f.tokens.length = f.applications.length + f.placeCount
  charged : f.chart.steps = f.cost f.tokens.length
  succeeds_iff : ∀ limit, (∃ f', run (.limited limit) = .ok f') ↔ f.cost f.tokens.length ≤ limit
  same : ∀ limit f', run (.limited limit) = .ok f' → f' = f
  gives_up : ∀ limit, ∀ w < f.tokens.length, limit < f.cost w → (∀ v < w, f.cost v ≤ limit) →
    run (.limited limit) = .error (.overBudget (f.cost w) (w + 1))
  gives_up_last : ∀ limit, limit < f.cost f.tokens.length →
    (∀ v < f.tokens.length, f.cost v ≤ limit) →
    run (.limited limit) = .error (.overBudget (f.cost f.tokens.length) f.tokens.length)
  monotone : ∀ limit limit', limit ≤ limit' → (∃ f', run (.limited limit) = .ok f') →
    ∃ f', run (.limited limit') = .ok f'
  free : f.tokens = [] → ∀ b, run b = .ok f

theorem cost_mono (f : Forest) {v w : Nat} (h : v ≤ w) : f.cost v ≤ f.cost w :=
  (((List.range'_sublist_right.2 h).flatMap _).map _).sum_le_sum fun _ _ ↦ Nat.zero_le _

theorem length_applications (f : Forest) :
    f.applications.length = ((ofSentence f.tokens.length).map fun s ↦
      Node.applicationCount (f.chart.cell s).nodes).sum := by
  rw [applications, nodes, List.flatMap_assoc, List.length_flatMap]
  refine congrArg List.sum (List.map_congr_left fun s _ ↦ ?_)
  rw [List.length_flatMap, List.map_map]
  rfl

theorem cost_length (f : Forest) :
    f.cost f.tokens.length = f.applications.length + f.placeCount := by
  rw [length_applications, placeCount, ← List.sum_map_add]
  rfl

variable {g : Grammar} {tokens : List String}

theorem steps_upTo_eq_cost (w : Nat) :
    (Chart.upTo g tokens w).steps = (g.forest tokens).cost w := by
  rw [Chart.steps_upTo, cost]
  exact congrArg List.sum (List.map_congr_left fun s _ ↦ (grown g tokens).steps_eq_holdings s)

section Run

variable {start : String} (hs : g.isNonterminal start)
include hs

theorem enumerate_of_overrun {b : Budget} {steps width : Nat}
    (h : b.overrun? (g.forest tokens).cost tokens.length = some (steps, width)) :
    enumerate g start tokens b = .error (.overBudget steps width) := by
  rw [enumerate_eq hs, funext steps_upTo_eq_cost, h]

theorem enumerate_of_overrun_eq_none {b : Budget}
    (h : b.overrun? (g.forest tokens).cost tokens.length = none) :
    enumerate g start tokens b = .ok (g.forest tokens) := by
  rw [enumerate_eq hs, funext steps_upTo_eq_cost, h]

theorem enumerate_limited_succeeds_iff (limit : Nat) :
    (∃ f, enumerate g start tokens (.limited limit) = .ok f) ↔
      (g.forest tokens).cost tokens.length ≤ limit := by
  rw [← Budget.overrun?_limited_eq_none_iff rfl fun v ↦ cost_mono _]
  constructor
  · intro h
    obtain ⟨f, hf⟩ := h
    rw [Option.eq_none_iff_forall_ne_some]
    intro overrun hover
    rw [enumerate_of_overrun hs hover] at hf
    cases hf
  · intro h
    exact ⟨_, enumerate_of_overrun_eq_none hs h⟩

theorem budgetLaw_forest : (g.forest tokens).BudgetLaw (enumerate g start tokens) where
  cost_zero := rfl
  cost_whole := cost_length _
  charged := steps_upTo_eq_cost _
  succeeds_iff := enumerate_limited_succeeds_iff hs
  same _ _ := eq_forest_of_enumerate
  gives_up limit w hw hover hbefore := by
    refine enumerate_of_overrun hs (Budget.overrun?_of_first hw ?_ fun v hv hspent ↦ ?_)
    · exact Budget.isSpent_limited.2 hover
    · exact Nat.not_lt.2 (hbefore v hv) (Budget.isSpent_limited.1 hspent)
  gives_up_last limit hover hbefore := by
    -- without tokens there is nothing that a limit could be below
    have hpos : 0 < tokens.length := by
      by_contra hzero
      obtain rfl := List.length_eq_zero_iff.1 (Nat.eq_zero_of_not_pos hzero)
      exact Nat.not_lt_zero _ hover
    refine enumerate_of_overrun hs (Budget.overrun?_of_last hpos ?_ fun v hv hspent ↦ ?_)
    · exact Budget.isSpent_limited.2 hover
    · exact Nat.not_lt.2 (hbefore v hv) (Budget.isSpent_limited.1 hspent)
  monotone limit limit' hle := by
    rw [enumerate_limited_succeeds_iff hs, enumerate_limited_succeeds_iff hs]
    exact fun h ↦ h.trans hle
  free htokens b := by
    obtain rfl : tokens = [] := htokens
    exact enumerate_of_overrun_eq_none hs (b.overrun?_zero _)

end Run

end Forest

/-- A limit on steps decides in the same way about every enumeration: it succeeds if and only if the
whole forest costs no more than the limit, and otherwise gives up at the first width at which the
narrower ones have cost more, or at the last. -/
theorem enumerate_limited (g : Grammar) (start : String) (hs : g.isNonterminal start)
    (tokens : List String) :
    ∃ f, enumerate g start tokens .unlimited = .ok f ∧ f.tokens = tokens ∧
      f.BudgetLaw (enumerate g start tokens) :=
  ⟨g.forest tokens, enumerate_unlimited hs, rfl, Forest.budgetLaw_forest hs⟩

theorem enumerate_limited_looping :
    looping.isNonterminal "S" ∧
      ∃ f, enumerate looping "S" ["x", "x"] .unlimited = .ok f ∧ f.tokens = ["x", "x"] ∧
        f.BudgetLaw (enumerate looping "S" ["x", "x"]) :=
  ⟨by decide, enumerate_limited looping "S" (by decide) ["x", "x"]⟩

end Readings
