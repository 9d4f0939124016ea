import Readings.Grammar.Basic
import Readings.Span

/-!
Constituents: categories over spans, and the ways in which rules put them together. The nodes of a
span record, for each category found there, how it can be derived; a node without applications is a
terminal that was read off its token.
-/

namespace Readings

structure Constituent where
  category : String
  span : Span
  deriving DecidableEq, Hashable, Inhabited

instance : ToString Constituent := ⟨fun c ↦ s!"{c.category}{c.span}"⟩

/-- One way to derive a constituent: a rule, and the constituents that its right-hand side matched
from left to right. -/
structure Application where
  rule : Rule
  children : List Constituent
  deriving DecidableEq, Inhabited

namespace Application

/-- What applications are compared by: the number of the rule, then where each child starts and
stops. -/
def key (a : Application) : List Nat := a.rule.id :: a.children.flatMap (·.span.bounds)

def le (a b : Application) : Bool := lexLe a.key b.key

end Application

/-- A category of some span and the ways to derive it there. -/
structure Node where
  category : String
  applications : List Application
  deriving DecidableEq, Inhabited

namespace Node

def isLeaf (n : Node) : Bool := n.applications.isEmpty

/-- The applications in the order of rules, then of spans. -/
def sort (n : Node) : Node := { n with applications := n.applications.mergeSort Application.le }

def has (nodes : List Node) (category : String) : Bool := nodes.any (·.category == category)

def get? (nodes : List Node) (category : String) : Option Node :=
  nodes.find? (·.category == category)

/-- Adds applications to the node of a category, which is put at the end if it is new. -/
def record (category : String) (applications : List Application) : List Node → List Node
  | [] => [⟨category, applications⟩]
  | n :: rest =>
    if n.category = category then ⟨category, n.applications ++ applications⟩ :: rest
    else n :: record category applications rest

/-- The ways to derive a category, none if it is not there. -/
def applicationsOf (nodes : List Node) (category : String) : List Application :=
  ((get? nodes category).map (·.applications)).getD []

@[simp] theorem has_nil (category : String) : has [] category = false := rfl

theorem has_iff {nodes : List Node} {category : String} :
    has nodes category ↔ ∃ n ∈ nodes, n.category = category := by
  simp [has]

/-- Recording makes its own category present and changes no other. -/
theorem has_record (nodes : List Node) (category c : String) (as : List Application) :
    has (record category as nodes) c = (category == c || has nodes c) := by
  induction nodes with
  | nil => simp [record, has]
  | cons n rest ih =>
    by_cases h : n.category = category
    · simp [record, has, h]
    · simp only [record, h, if_false]
      simp only [has, List.any_cons] at ih ⊢
      rw [ih, Bool.or_left_comm]

theorem get?_cons (n : Node) (rest : List Node) (c : String) :
    get? (n :: rest) c = if n.category = c then some n else get? rest c := by
  by_cases h : n.category = c <;> simp [get?, h]

theorem applicationsOf_nil (c : String) : applicationsOf [] c = [] := rfl

theorem applicationsOf_record (nodes : List Node) (c c' : String) (as : List Application) :
    applicationsOf (record c as nodes) c' =
      if c = c' then applicationsOf nodes c' ++ as else applicationsOf nodes c' := by
  induction nodes with
  | nil =>
    rw [record, applicationsOf, get?_cons]
    by_cases h : c = c' <;> simp [h, applicationsOf_nil, get?]
  | cons n rest ih =>
    simp only [applicationsOf] at ih ⊢
    by_cases hn : n.category = c
    · subst hn
      rw [record, if_pos rfl, get?_cons, get?_cons]
      by_cases h : n.category = c' <;> simp [h]
    · rw [record, if_neg hn, get?_cons, get?_cons]
      by_cases h : n.category = c'
      · have hc : c ≠ c' := fun hc ↦ hn (h.trans hc.symm)
        simp [h, hc]
      · simpa [h] using ih

end Node

end Readings
