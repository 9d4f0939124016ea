import Readings.Constituent
import Std.Data.HashMap

/-!
Charts: what has been found over the spans of a sentence so far. Beside its nodes, the cell of a
span keeps the partial matches of long rules: if the first `dot` symbols of a rule together match
the span, there is an entry with the places at which the last of these symbols may start. Every
recorded application and every stored place counts as one step.
-/

namespace Readings

structure Cell where
  nodes : List Node := []
  /-- By the number of a rule and a `dot`, where the last matched symbol may start. -/
  partials : List ((Nat × Nat) × List Nat) := []
  steps : Nat := 0
  deriving Inhabited

/-- The entry for the first `dot` symbols of the rule. -/
def Cell.splits? (c : Cell) (rule : Rule) (dot : Nat) : Option (List Nat) :=
  c.partials.lookup (rule.id, dot)

/-- The cells found so far and the steps that they took. -/
structure Chart where
  cells : Std.HashMap Span Cell := {}
  steps : Nat := 0

namespace Chart

def cell (c : Chart) (s : Span) : Cell := c.cells[s]?.getD {}

def has (c : Chart) (k : Constituent) : Bool := Node.has (c.cell k.span).nodes k.category

def node? (c : Chart) (k : Constituent) : Option Node :=
  Node.get? (c.cell k.span).nodes k.category

def splits? (c : Chart) (rule : Rule) (dot : Nat) (s : Span) : Option (List Nat) :=
  (c.cell s).splits? rule dot

def insert (c : Chart) (s : Span) (cell : Cell) : Chart :=
  ⟨c.cells.insert s cell, c.steps + cell.steps⟩

theorem cell_empty (s : Span) : ({} : Chart).cell s = {} := by simp [cell]

theorem cell_insert (c : Chart) (s t : Span) (cell : Cell) :
    (c.insert s cell).cell t = if s = t then cell else c.cell t := by
  simp only [Chart.cell, insert, Std.HashMap.getElem?_insert, beq_iff_eq]
  split <;> rfl

@[simp] theorem steps_insert (c : Chart) (s : Span) (cell : Cell) :
    (c.insert s cell).steps = c.steps + cell.steps := rfl

end Chart

end Readings
