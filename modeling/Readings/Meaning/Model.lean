import Readings.Meaning.Interpretation
import Std.Data.HashMap

/-!
Models: interpretations by tables. A model composes nodes by their rule and values leaves by their
token and terminal or, failing that, by their terminal alone. It is filled by assignments that
refer to rules and terminals by name; an assignment to a name that the grammar does not know fails
and changes nothing.
-/

namespace Readings

/-- Composes the values of children, or says why they do not combine. -/
abbrev Composition (V : Type) := Constituent → List V → Except String V

/-- Values a leaf, or says why it has no value. -/
abbrev Valuation (V : Type) := Constituent → (token : String) → Except String V

/-- Tables of compositions by rule number and of valuations by entry and by terminal. -/
structure Model (V : Type) where
  compositions : Std.HashMap Nat (Composition V) := {}
  entries : Std.HashMap LexicalEntry (Valuation V) := {}
  terminals : Std.HashMap String (Valuation V) := {}

inductive ModelError where
  | unknownRule (rule : Production)
  | unknownTerminal (name : String)
  deriving DecidableEq, Inhabited

def ModelError.message : ModelError → String
  | unknownRule rule => s!"grammar has no rule `{rule}`"
  | unknownTerminal name => s!"`{name}` is not a terminal category of the grammar"

namespace Model

variable {V : Type}

inductive Assignment (V : Type) where
  /-- Composes by the rule, in place of what composed by it before. -/
  | rule (rule : Production) (compose : Composition V)
  /-- Composes by every rule that nothing composes by yet. -/
  | remainingRules (compose : Composition V)
  /-- Values the token read as the terminal. -/
  | lexical (token terminal : String) (valuation : Constituent → Except String V)
  | value (token terminal : String) (value : V)
  /-- Values every token of the terminal that has no entry of its own. -/
  | words (terminal : String) (valuation : Valuation V)

def setEntry (g : Grammar) (m : Model V) (entry : LexicalEntry) (valuation : Valuation V) :
    Except ModelError (Model V) :=
  if g.isTerminal entry.category then
    .ok { m with entries := m.entries.insert entry valuation }
  else .error (.unknownTerminal entry.category)

def assign (g : Grammar) (m : Model V) : Assignment V → Except ModelError (Model V)
  | .rule p compose =>
    match g.rule? p with
    | some rule => .ok { m with compositions := m.compositions.insert rule.id compose }
    | none => .error (.unknownRule p)
  | .remainingRules compose =>
    .ok { m with compositions := g.rules.foldl (·.insertIfNew ·.id compose) m.compositions }
  | .lexical token terminal valuation => setEntry g m ⟨token, terminal⟩ fun k _ ↦ valuation k
  | .value token terminal value => setEntry g m ⟨token, terminal⟩ fun _ _ ↦ .ok value
  | .words terminal valuation =>
    if g.isTerminal terminal then
      .ok { m with terminals := m.terminals.insert terminal valuation }
    else .error (.unknownTerminal terminal)

/-- Carries out assignments in order and keeps, for each, the error if it was refused. -/
def assignAll (g : Grammar) : Model V → List (Assignment V) → Model V × List (Option ModelError)
  | m, [] => (m, [])
  | m, a :: rest =>
    match assign g m a with
    | .ok m =>
      let (m, errors) := assignAll g m rest
      (m, none :: errors)
    | .error e =>
      let (m, errors) := assignAll g m rest
      (m, some e :: errors)

def ofAssignments (g : Grammar) (assignments : List (Assignment V)) :
    Model V × List (Option ModelError) :=
  assignAll g {} assignments

def covers (m : Model V) (rule : Rule) : Bool := m.compositions.contains rule.id

def valuation? (m : Model V) (entry : LexicalEntry) : Option (Valuation V) :=
  m.entries[entry]?.or m.terminals[entry.category]?

def interpretation (m : Model V) : Interpretation V where
  leaf k token :=
    match m.valuation? ⟨token, k.category⟩ with
    | none => .error (.missingEntry token k.category)
    | some valuation => (valuation k token).mapError (.leafFailure k.category token)
  compose k rule values :=
    match m.compositions[rule.id]? with
    | none => .error (.missingComposition rule.toProduction)
    | some compose => (compose k values).mapError (.nodeFailure rule.toProduction)

/-- How much the model covers. -/
def text (m : Model V) : String :=
  s!"Model \x7b compositions: {m.compositions.size}, entries: {m.entries.size}, " ++
    s!"categories: {m.terminals.size} \x7d"

instance : ToString (Model V) := ⟨text⟩

end Model

end Readings
