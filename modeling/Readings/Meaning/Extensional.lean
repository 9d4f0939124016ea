import Readings.Meaning.Denotation
import Readings.Meaning.Interpretation
import Std.Data.HashMap

/-!
Extensional interpretation, driven by what the values are: words denote entities, truth values or
functions, and the value of a node does not depend on its rule. A single child passes its value up;
of two children, the one that is a function is applied to the other.
-/

namespace Readings

/-- A domain of entities and what words denote, whatever category they are read as. -/
structure Extensional where
  domain : List String := []
  lexicon : Std.HashMap String Denotation := {}

namespace Extensional

inductive Entry where
  /-- The word names the entity, which joins the domain. -/
  | entity (token name : String)
  | predicate (token : String) (members : List String)
  | relation (token : String) (pairs : List (String × String))
  | denotes (token : String) (d : Denotation)

def Entry.token : Entry → String
  | entity token _ | predicate token _ | relation token _ | denotes token _ => token

def Entry.denotation : Entry → Denotation
  | entity _ name => .entity name
  | predicate token members => .function (.predicate token members)
  | relation token pairs => .function (.relation token pairs)
  | denotes _ d => d

/-- An entity joins the domain once, and a word denotes what was said of it last. -/
def add (m : Extensional) (e : Entry) : Extensional where
  domain :=
    match e with
    | .entity _ name => if name ∈ m.domain then m.domain else m.domain ++ [name]
    | _ => m.domain
  lexicon := m.lexicon.insert e.token e.denotation

def ofEntries (entries : List Entry) : Extensional := entries.foldl add {}

def denotation? (m : Extensional) (token : String) : Option Denotation := m.lexicon[token]?

def combine : List Denotation → Except Misfit Denotation
  | [only] => .ok only
  | [left, right] =>
    match left.isFunction, right.isFunction with
    | true, false => left.apply right
    | false, true => right.apply left
    | _, _ => .error (.noApplication left right)
  | values => .error (.manyValues values.length)

def interpretation (m : Extensional) : Interpretation Denotation where
  leaf k token :=
    match m.denotation? token with
    | some d => .ok d
    | none => .error (.missingEntry token k.category)
  compose _ rule values :=
    (combine values).mapError fun misfit ↦ .nodeFailure rule.toProduction misfit.message

end Extensional

end Readings
