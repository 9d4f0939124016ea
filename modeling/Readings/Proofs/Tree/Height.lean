import Mathlib.Order.Bounds.Basic
import Readings.Proofs.Tree.Derivation

/-!
The height of a tree, which is the number of edges on its longest path, and the least height that
the trees for a category have.
-/

namespace Readings

namespace Tree

def height : Tree → Nat := fold (fun _ _ _ ↦ 0) (fun _ _ heights ↦ heights.foldl max 0 + 1)

@[simp] theorem height_leaf (terminal token : String) (position : Nat) :
    height (.leaf terminal token position) = 0 := rfl

@[simp] theorem height_node (rule : Rule) (span : Span) (children : List Tree) :
    height (.node rule span children) = (children.map height).foldl max 0 + 1 := by
  rw [height, fold_node]

/-- The longest path has one more node than it has edges. -/
theorem Parses.depth_eq {g : Grammar} (hg : g.WellFormed) {tokens : List String} {t : Tree}
    (h : t.Parses g tokens) : t.depth = t.height + 1 := by
  induction h with
  | leaf => rfl
  | @node rule span children mem matched tile below ih =>
    have hdepths : children.map depth = (children.map height).map (· + 1) := by
      rw [List.map_map]
      exact List.map_congr_left ih
    rw [depth, fold_node, height_node, Nat.add_comm 1]
    change (children.map depth).foldl max 0 + 1 = _
    rw [hdepths]
    -- a row of trees that is empty would have no tallest
    cases children with
    | nil => exact absurd rfl (children_ne_nil hg mem matched)
    | cons t ts => exact congrArg (· + 1) (foldl_max_map_succ (ts.map height) t.height)

end Tree

/-- The least height of the trees that parse some tokens as the category. -/
def Grammar.LeastHeight (g : Grammar) (category : String) (n : Nat) : Prop :=
  IsLeast {height | ∃ (t : Tree) (tokens : List String),
    t.Parses g tokens ∧ t.category = category ∧ t.height = height} n

end Readings
