import Mathlib.Data.List.Basic
import Readings.Tree.Parse

/-!
The subtrees of a tree in the order in which they are evaluated.
-/

namespace Readings.Tree

mutual

/-- All subtrees, the children of a node from left to right and then the node. -/
def postorder : Tree → List Tree
  | leaf terminal token position => [leaf terminal token position]
  | node rule span children => postorderEach children ++ [node rule span children]

def postorderEach : List Tree → List Tree
  | [] => []
  | t :: ts => postorder t ++ postorderEach ts

end

theorem postorderEach_eq_flatMap (ts : List Tree) : postorderEach ts = ts.flatMap postorder := by
  induction ts with
  | nil => rfl
  | cons t ts ih => rw [postorderEach, ih, List.flatMap_cons]

@[simp] theorem postorder_leaf (terminal token : String) (position : Nat) :
    (leaf terminal token position).postorder = [leaf terminal token position] := by
  rw [postorder]

@[simp] theorem postorder_node (rule : Rule) (span : Span) (children : List Tree) :
    (node rule span children).postorder =
      children.flatMap postorder ++ [node rule span children] := by
  rw [postorder, postorderEach_eq_flatMap]

variable {t part : Tree}

theorem leaves_eq_filter_postorder (t : Tree) : t.leaves = t.postorder.filter isLeaf := by
  induction t with
  | leaf => rfl
  | node rule span children ih =>
    have hroot : [node rule span children].filter isLeaf = [] := rfl
    rw [postorder_node, List.filter_append, hroot, List.append_nil, List.filter_flatMap, leaves,
      fold_node, ← List.flatMap_def]
    exact List.flatMap_congr ih

theorem usesRule_iff {id : Nat} :
    t.usesRule id ↔
      ∃ rule span children, node rule span children ∈ t.postorder ∧ rule.id = id := by
  induction t with
  | leaf => simp
  | node rule span children ih =>
    simp only [usesRule_node, Bool.or_eq_true, beq_iff_eq, List.any_eq_true, postorder_node,
      List.mem_append, List.mem_flatMap, List.mem_singleton]
    constructor
    · rintro (hid | ⟨t, ht, huses⟩)
      · exact ⟨rule, span, children, .inr rfl, hid⟩
      · obtain ⟨rule', span', children', hmem, hid⟩ := (ih t ht).1 huses
        exact ⟨rule', span', children', .inl ⟨t, ht, hmem⟩, hid⟩
    · rintro ⟨rule', span', children', ⟨t, ht, hmem⟩ | he, hid⟩
      · exact .inr ⟨t, ht, (ih t ht).2 ⟨rule', span', children', hmem, hid⟩⟩
      · cases he
        exact .inl hid

theorem Parses.of_mem_postorder {g : Grammar} {tokens : List String} (h : t.Parses g tokens)
    (hpart : part ∈ t.postorder) : part.Parses g tokens := by
  induction h with
  | leaf here entry =>
    rw [postorder_leaf, List.mem_singleton] at hpart
    exact hpart ▸ .leaf here entry
  | node mem matched tile below ih =>
    rw [postorder_node, List.mem_append, List.mem_flatMap, List.mem_singleton] at hpart
    obtain ⟨child, hchild, hpart⟩ | rfl := hpart
    · exact ih child hchild hpart
    · exact .node mem matched tile below

end Readings.Tree
