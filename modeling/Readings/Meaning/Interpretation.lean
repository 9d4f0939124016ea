import Readings.Tree

/-!
Interpretations: values for leaves, and a way to compose the values of the children of a node.
A tree is evaluated from the bottom up and from left to right, and the first failure is the result
of the whole tree. Trees are evaluated each on its own.
-/

namespace Readings

inductive EvalError where
  | missingEntry (token terminal : String)
  | missingComposition (rule : Production)
  | leafFailure (terminal token reason : String)
  | nodeFailure (rule : Production) (reason : String)
  deriving DecidableEq, Inhabited

def EvalError.message : EvalError → String
  | missingEntry token terminal => s!"model has no value for `{token}` as {terminal}"
  | missingComposition rule => s!"model has no composition for rule `{rule}`"
  | leafFailure terminal token reason => s!"composition failed at `{terminal} {token}`: {reason}"
  | nodeFailure rule reason => s!"composition failed at `{rule}`: {reason}"

/-- Values for leaves, and a composition of the values of children. Both are told which constituent
the value is for. -/
structure Interpretation (V : Type) where
  leaf : Constituent → (token : String) → Except EvalError V
  compose : Constituent → Rule → List V → Except EvalError V

namespace Interpretation

variable {V : Type}

def evaluate (m : Interpretation V) : Tree → Except EvalError V :=
  Tree.fold
    (fun terminal token position ↦ m.leaf ⟨terminal, Span.ofWidth position 1⟩ token)
    (fun rule span below ↦ below.mapM id >>= m.compose ⟨rule.lhs, span⟩ rule)

@[simp] theorem evaluate_leaf (m : Interpretation V) (terminal token : String) (position : Nat) :
    m.evaluate (.leaf terminal token position) =
      m.leaf ⟨terminal, Span.ofWidth position 1⟩ token := rfl

theorem evaluate_node (m : Interpretation V) (rule : Rule) (span : Span) (children : List Tree) :
    m.evaluate (.node rule span children) =
      children.mapM m.evaluate >>= m.compose ⟨rule.lhs, span⟩ rule := by
  rw [evaluate, Tree.fold_node, List.mapM_map]
  rfl

/-- Reads every token as itself and joins children by a space. -/
def echo : Interpretation String where
  leaf _ token := .ok token
  compose _ _ values := .ok (" ".intercalate values)

/-- The results of a list, up to and including the first failure, with what they noted down. -/
def untilFailure {E A B : Type} : List (Except E A × List B) → Except E (List A) × List B
  | [] => (.ok [], [])
  | (.error e, notes) :: _ => (.error e, notes)
  | (.ok a, notes) :: rest =>
    let (as, more) := untilFailure rest
    ((a :: ·) <$> as, notes ++ more)

/-- The value of a tree, together with all values that were composed on the way, in the order of
evaluation. -/
def evaluateNoting (m : Interpretation V) :
    Tree → Except EvalError V × List (Constituent × V) :=
  Tree.fold
    (fun terminal token position ↦ (m.leaf ⟨terminal, Span.ofWidth position 1⟩ token, []))
    (fun rule span below ↦
      let (values, notes) := untilFailure below
      match values >>= m.compose ⟨rule.lhs, span⟩ rule with
      | .ok value => (.ok value, notes ++ [(⟨rule.lhs, span⟩, value)])
      | .error e => (.error e, notes))

end Interpretation

/-- A tree, with what it means or why it means nothing. -/
structure Reading (V : Type) where
  tree : Tree
  value : Except EvalError V

namespace Reading

variable {V : Type}

def isOk (r : Reading V) : Bool := r.value.isOk

def successes (rs : List (Reading V)) : List (Tree × V) :=
  rs.filterMap fun r ↦ match r.value with
    | .ok value => some (r.tree, value)
    | .error _ => none

def failures (rs : List (Reading V)) : List (Tree × EvalError) :=
  rs.filterMap fun r ↦ match r.value with
    | .ok _ => none
    | .error e => some (r.tree, e)

end Reading

def Interpretation.evaluateEach {V : Type} (m : Interpretation V) (trees : List Tree) :
    List (Reading V) :=
  trees.map fun t ↦ ⟨t, m.evaluate t⟩

end Readings
