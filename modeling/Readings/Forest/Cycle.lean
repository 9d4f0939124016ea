import Readings.Forest.Basic
import Std.Data.HashSet

/-!
Unary cycles. Spans shrink towards the leaves, so a constituent can only come to stand below itself
through a chain of unary applications, which stay within one cell. What a cyclic constituent expands
to depends on the path that leads to it; every other constituent expands in the same way wherever it
stands.
-/

namespace Readings

/-- The members of a list that are among some names. -/
def among (names : List String) (xs : List String) : List String := xs.filter (names.contains ·)

/-- The members of a list that are not among some names. -/
def outside (names : List String) (xs : List String) : List String := xs.filter (!names.contains ·)

theorem length_among_add_length_outside (names xs : List String) :
    (among names xs).length + (outside names xs).length = xs.length := by
  induction xs with
  | nil => rfl
  | cons x xs ih =>
    simp only [among, outside] at ih ⊢
    cases h : names.contains x <;> simp only [h, List.filter_cons, List.length_cons] <;> grind

/-- Whether a search that goes on from the names on the stack comes to a name that leads to the
target. It goes on to each of the unseen names once; where it sets off from may be unseen too. -/
def reaches (next : String → List String) (target : String) (stack unseen : List String) : Bool :=
  match stack with
  | [] => false
  | x :: stack =>
    let successors := next x
    if successors.contains target then true
    else reaches next target (among successors unseen ++ stack) (outside successors unseen)
termination_by stack.length + unseen.length
decreasing_by
  have := length_among_add_length_outside (next x) unseen
  simp only [List.length_append, List.length_cons]
  omega

namespace Cell

/-- The categories that the unary applications of a category lead to. -/
def unaryChildren (c : Cell) (category : String) : List String :=
  match Node.get? c.nodes category with
  | none => []
  | some n => n.applications.filterMap fun a ↦
    match a.children with
    | [child] => some child.category
    | _ => none

/-- Whether one or more unary applications lead from a category to another one. -/
def unaryReaches (c : Cell) (category target : String) : Bool :=
  reaches c.unaryChildren target [category] (c.nodes.map (·.category))

def cyclic (c : Cell) : List String :=
  (c.nodes.map (·.category)).filter fun category ↦ c.unaryReaches category category

end Cell

def Forest.cyclic (f : Forest) : Std.HashSet Constituent :=
  .ofList <| (Span.ofSentence f.tokens.length).flatMap fun s ↦
    (f.chart.cell s).cyclic.map (⟨·, s⟩)

end Readings
