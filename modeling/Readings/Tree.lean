import Readings.Constituent

/-!
Parse trees: derivations laid out over a sentence. A leaf is a terminal and the one token that it
consumed, a node is a rule, the span that it covers and what the symbols of the rule matched.

Most of what is asked of a tree is a fold; `fold_node` is the equation that a fold obeys.
-/

namespace Readings

inductive Tree where
  | leaf (terminal token : String) (position : Nat)
  | node (rule : Rule) (span : Span) (children : List Tree)
  deriving Inhabited

namespace Tree

mutual

private def decEq : (t u : Tree) → Decidable (t = u)
  | .leaf a b i, .leaf c d j =>
    if h : a = c ∧ b = d ∧ i = j then isTrue (by simp [h]) else isFalse (by simpa using h)
  | .leaf .., .node .. => isFalse nofun
  | .node .., .leaf .. => isFalse nofun
  | .node r s ts, .node r' s' us =>
    if h : r = r' ∧ s = s' then
      match decEqList ts us with
      | isTrue h' => isTrue (by simp [h, h'])
      | isFalse h' => isFalse (by simp [h'])
    else isFalse (by simp only [node.injEq]; exact fun h' ↦ h ⟨h'.1, h'.2.1⟩)

private def decEqList : (ts us : List Tree) → Decidable (ts = us)
  | [], [] => isTrue rfl
  | [], _ :: _ => isFalse nofun
  | _ :: _, [] => isFalse nofun
  | t :: ts, u :: us =>
    match decEq t u with
    | isFalse h => isFalse (by simp [h])
    | isTrue h =>
      match decEqList ts us with
      | isTrue h' => isTrue (by simp [h, h'])
      | isFalse h' => isFalse (by simp [h'])

end

instance : DecidableEq Tree := decEq

@[elab_as_elim, induction_eliminator]
theorem induction {P : Tree → Prop}
    (leaf : ∀ terminal token position, P (.leaf terminal token position))
    (node : ∀ rule span children, (∀ t ∈ children, P t) → P (.node rule span children)) :
    ∀ t, P t
  | .leaf terminal token position => leaf terminal token position
  | .node rule span children =>
    node rule span children fun t _ ↦ induction leaf node t

section Fold

variable {α : Type} (ofLeaf : String → String → Nat → α) (ofNode : Rule → Span → List α → α)

mutual

/-- Replaces the leaves and the nodes of a tree from the bottom up. -/
def fold : Tree → α
  | .leaf terminal token position => ofLeaf terminal token position
  | .node rule span children => ofNode rule span (foldList children)

def foldList : List Tree → List α
  | [] => []
  | t :: ts => fold t :: foldList ts

end

theorem foldList_eq_map (ts : List Tree) :
    foldList ofLeaf ofNode ts = ts.map (fold ofLeaf ofNode) := by
  induction ts with
  | nil => rfl
  | cons t ts ih => simp [foldList, ih]

@[simp] theorem fold_leaf (terminal token : String) (position : Nat) :
    fold ofLeaf ofNode (.leaf terminal token position) = ofLeaf terminal token position := rfl

@[simp] theorem fold_node (rule : Rule) (span : Span) (children : List Tree) :
    fold ofLeaf ofNode (.node rule span children) =
      ofNode rule span (children.map (fold ofLeaf ofNode)) := by
  rw [fold, foldList_eq_map]

end Fold

def category : Tree → String
  | .leaf terminal _ _ => terminal
  | .node rule _ _ => rule.lhs

def span : Tree → Span
  | .leaf _ _ position => Span.ofWidth position 1
  | .node _ span _ => span

def constituent (t : Tree) : Constituent := ⟨t.category, t.span⟩

def rule? : Tree → Option Rule
  | .leaf .. => none
  | .node rule _ _ => some rule

def children : Tree → List Tree
  | .leaf .. => []
  | .node _ _ children => children

def isLeaf : Tree → Bool
  | .leaf .. => true
  | .node .. => false

/-- The number of levels; a leaf has one. -/
def depth : Tree → Nat := fold (fun _ _ _ ↦ 1) (fun _ _ depths ↦ 1 + depths.foldl max 0)

def leaves : Tree → List Tree :=
  fold (fun terminal token position ↦ [.leaf terminal token position])
    (fun _ _ leaves ↦ leaves.flatten)

def tokens : Tree → List String :=
  fold (fun _ token _ ↦ [token]) (fun _ _ tokens ↦ tokens.flatten)

/-- Some node of the tree expands the rule with this number. -/
def usesRule (id : Nat) : Tree → Bool :=
  fold (fun _ _ _ ↦ false) (fun rule _ below ↦ rule.id == id || below.any (·))

@[simp] theorem usesRule_leaf (id : Nat) (terminal token : String) (position : Nat) :
    usesRule id (.leaf terminal token position) = false := rfl

@[simp] theorem usesRule_node (id : Nat) (rule : Rule) (span : Span) (children : List Tree) :
    usesRule id (.node rule span children) = (rule.id == id || children.any (usesRule id)) := by
  rw [usesRule, fold_node, List.any_map]
  rfl

/-- All subtrees, a tree before its children. -/
def subtrees (t : Tree) : List Tree :=
  (t.fold (fun terminal token position ↦
      (Tree.leaf terminal token position, [Tree.leaf terminal token position]))
    (fun rule span below ↦
      let whole := Tree.node rule span (below.map (·.1))
      (whole, whole :: below.flatMap (·.2)))).2

/-- Labelled brackets: a leaf is written `[PN jojo]`, a node `[S child child]`. -/
def brackets : Tree → String :=
  fold (fun terminal token _ ↦ "[" ++ terminal ++ " " ++ token ++ "]")
    (fun rule _ below ↦ "[" ++ rule.lhs ++ String.join (below.map (" " ++ ·)) ++ "]")

instance : ToString Tree := ⟨brackets⟩

end Tree

end Readings
