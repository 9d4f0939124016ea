import Readings.Text.Quoted

/-!
Denotations: entities, truth values and functions. Functions are kept as data, so a denotation can
be inspected as well as applied; two functions are never taken to be the same.
-/

namespace Readings

mutual

inductive Denotation where
  | entity (name : String)
  | truth (value : Bool)
  | function (f : Function)

inductive Function where
  /-- True of the members. -/
  | predicate (word : String) (members : List String)
  /-- Holds of pairs of a subject and an object; takes the object first. -/
  | relation (word : String) (pairs : List (String × String))
  /-- A relation that has been given its object. -/
  | relationTo (word : String) (pairs : List (String × String)) (object : String)
  | identity
  | negation
  | constant (value : Denotation)
  /-- Applies its argument to the entity. -/
  | raised (name : String)
  /-- Has no value for any argument. -/
  | undefined (reason : String)

end

namespace Denotation

instance : Inhabited Denotation := ⟨.truth false⟩

def isFunction : Denotation → Bool
  | function _ => true
  | _ => false

def entity? : Denotation → Option String
  | entity name => some name
  | _ => none

def truth? : Denotation → Option Bool
  | truth value => some value
  | _ => none

def text : Denotation → String
  | entity name => name
  | truth value => toString value
  | function _ => "<function>"

instance : ToString Denotation := ⟨text⟩

def describe : Denotation → String
  | entity name => s!"Entity({Text.quote name})"
  | truth value => s!"Truth({value})"
  | function _ => "Function(..)"

/-- Entities are the same by name and truth values by value; a function is not even the same as
itself. -/
def same : Denotation → Denotation → Bool
  | entity a, entity b => a == b
  | truth a, truth b => a == b
  | _, _ => false

end Denotation

inductive Misfit where
  | notFunction (d : Denotation)
  /-- The word demands an entity and was given something else. -/
  | notEntity (word : String) (d : Denotation)
  | notTruth (d : Denotation)
  /-- Of two values, both or none are functions. -/
  | noApplication (left right : Denotation)
  | manyValues (count : Nat)
  | undefined (reason : String)

def Misfit.message : Misfit → String
  | notFunction d => s!"{d} is not a function"
  | notEntity word d => s!"`{word}` expects an entity, got {d}"
  | notTruth d => s!"not a truth value: {d}"
  | noApplication left right => s!"cannot combine {left} with {right}"
  | manyValues count => s!"cannot combine {count} values"
  | undefined reason => reason

namespace Function

/-- The value of a function for an entity. -/
def applyToEntity (f : Function) (name : String) : Except Misfit Denotation :=
  match f with
  | predicate _ members => .ok (.truth (members.contains name))
  | relation word pairs => .ok (.function (.relationTo word pairs name))
  | relationTo _ pairs object => .ok (.truth (pairs.contains (name, object)))
  | identity => .ok (.entity name)
  | negation => .error (.notTruth (.entity name))
  | constant value => .ok value
  | raised _ => .error (.notFunction (.entity name))
  | undefined reason => .error (.undefined reason)

/-- The value of a function for an argument that is no entity. -/
def applyToOther (f : Function) (d : Denotation) : Except Misfit Denotation :=
  match f with
  | predicate word _ | relation word _ | relationTo word _ _ => .error (.notEntity word d)
  | identity => .ok d
  | negation =>
    match d with
    | .truth value => .ok (.truth !value)
    | d => .error (.notTruth d)
  | constant value => .ok value
  | raised name =>
    match d with
    | .function g => g.applyToEntity name
    | d => .error (.notFunction d)
  | undefined reason => .error (.undefined reason)

def apply (f : Function) : Denotation → Except Misfit Denotation
  | .entity name => f.applyToEntity name
  | d => f.applyToOther d

end Function

/-- Only a function can be applied. -/
def Denotation.apply (d argument : Denotation) : Except Misfit Denotation :=
  match d with
  | function f => f.apply argument
  | d => .error (.notFunction d)

end Readings
