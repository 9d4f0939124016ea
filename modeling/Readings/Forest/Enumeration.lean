import Readings.Forest.Basic

/-!
Enumerating every derivation of a sentence into a forest, under a budget of steps. A sentence
without a derivation is no error: its forest has no root.
-/

namespace Readings

/-- Limits on an enumeration. They are checked before each width and once after the last. -/
structure Budget where
  maxSteps : Option Nat := none
  expired : Bool := false
  deriving DecidableEq, Inhabited

namespace Budget

def unlimited : Budget := {}

def isSpent (b : Budget) (steps : Nat) : Bool := b.maxSteps.any (· < steps) || b.expired

end Budget

inductive EnumerationError where
  | unknownStart (name : String)
  | terminalStart (name : String)
  | overBudget (steps width : Nat)
  deriving DecidableEq, Inhabited

def EnumerationError.message : EnumerationError → String
  | unknownStart name => s!"start symbol `{name}` is not part of the grammar"
  | terminalStart name => s!"start symbol `{name}` is a terminal category"
  | overBudget steps width =>
    s!"enumeration gave up after {steps} steps at span width {width}"

namespace Chart

/-- Fails if the budget does not allow the steps of the chart. -/
def check (b : Budget) (c : Chart) (width : Nat) : Except EnumerationError Chart :=
  if b.isSpent c.steps then .error (.overBudget c.steps width) else .ok c

/-- The chart of a whole sentence, within a budget. A sentence without tokens costs nothing. -/
def ofSentence (g : Grammar) (tokens : List String) (b : Budget) :
    Except EnumerationError Chart := do
  let n := tokens.length
  let chart ← (List.range' 1 n).foldlM
    (fun c width ↦ (extend g tokens · width) <$> c.check b width) {}
  if n = 0 then .ok chart else chart.check b n

end Chart

/-- The forest of a sentence. A start symbol that cannot head a derivation is reported before any
work is done. -/
def enumerate (g : Grammar) (start : String) (tokens : List String) (b : Budget) :
    Except EnumerationError Forest :=
  match g.symbol? start with
  | none => .error (.unknownStart start)
  | some symbol =>
    if symbol.isTerminal then .error (.terminalStart start)
    else (⟨g, tokens, ·⟩) <$> Chart.ofSentence g tokens b

end Readings
