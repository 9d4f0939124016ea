import Readings.Tree

/-!
Which trees are parses of a sentence: the leaves are tokens of the sentence read as one of their
categories, and every node expands a rule of the grammar over a span that its children divide among
themselves from left to right. A parse may go round a cycle of unary rules; its paths tell whether
it does.
-/

namespace Readings

namespace Span

/-- The spans are not empty and follow one another from `start` to `stop`. -/
inductive Tile : List Span → (start stop : Nat) → Prop
  | nil {start : Nat} : Tile [] start start
  | cons {s : Span} {rest : List Span} {stop : Nat} (nonempty : s.start < s.stop)
      (tail : Tile rest s.stop stop) : Tile (s :: rest) s.start stop

theorem Tile.le {spans : List Span} {start stop : Nat} (h : Tile spans start stop) :
    start ≤ stop := by
  induction h with
  | nil => exact Nat.le_refl _
  | cons nonempty _ ih => exact Nat.le_trans (Nat.le_of_lt nonempty) ih

theorem Tile.append {spans more : List Span} {start mid stop : Nat} (h : Tile spans start mid)
    (h' : Tile more mid stop) : Tile (spans ++ more) start stop := by
  induction h with
  | nil => exact h'
  | cons nonempty _ ih => exact .cons nonempty (ih h')

end Span

namespace Tree

inductive Parses (g : Grammar) (tokens : List String) : Tree → Prop
  | leaf {terminal token : String} {position : Nat} (here : tokens[position]? = some token)
      (entry : ⟨token, terminal⟩ ∈ g.lexicon.entries) :
      Parses g tokens (.leaf terminal token position)
  | node {rule : Rule} {span : Span} {children : List Tree} (mem : rule ∈ g.rules)
      (matched : children.map Tree.category = rule.rhs)
      (tile : Span.Tile (children.map Tree.span) span.start span.stop)
      (below : ∀ t ∈ children, Parses g tokens t) :
      Parses g tokens (.node rule span children)

/-- The constituents on each path from the root to a leaf. -/
def paths : Tree → List (List Constituent) :=
  fold (fun terminal _ position ↦ [[⟨terminal, Span.ofWidth position 1⟩]])
    (fun rule span below ↦ below.flatten.map (⟨rule.lhs, span⟩ :: ·))

@[simp] theorem paths_leaf (terminal token : String) (position : Nat) :
    paths (.leaf terminal token position) = [[⟨terminal, Span.ofWidth position 1⟩]] := rfl

@[simp] theorem paths_node (rule : Rule) (span : Span) (children : List Tree) :
    paths (.node rule span children) =
      (children.flatMap paths).map (⟨rule.lhs, span⟩ :: ·) := by
  rw [paths, fold_node, List.flatMap_def]

/-- No constituent stands below itself. -/
def Simple (t : Tree) : Prop := ∀ path ∈ t.paths, path.Nodup

end Tree

end Readings
