import Readings.Forest.Walk
import Readings.Tree

/-!
The readings of a sentence: the trees of a forest that span the whole sentence. A tree repeats no
constituent on a path from its root to a leaf.
-/

namespace Readings

/-- All ways to choose one element of each list; the choice from the first list varies slowest. -/
def choices {α : Type} : List (List α) → List (List α)
  | [] => [[]]
  | xs :: rest => xs.flatMap fun x ↦ (choices rest).map (x :: ·)

namespace Forest

/-- The tree of a constituent that has no applications. -/
def leaf? (f : Forest) (k : Constituent) : Option Tree :=
  f.tokens[k.span.start]?.map fun token ↦ .leaf k.category token k.span.start

/-- The trees below a constituent that a walk comes to, in the order in which the forest keeps its
applications. The number bounds the chain of constituents that is still to come. -/
def expand (f : Forest) (cyclic : Std.HashSet Constituent) :
    Nat → Constituent → Walk (List Tree) → List Tree × Walk (List Tree)
  | 0, _, w => ([], w)
  | bound + 1, k, w =>
    match w.memo[k]? with
    | some trees => (trees, w)
    | none =>
      let onCycle := cyclic.contains k
      if onCycle && w.path.contains k then ([], w)
      else
        let (trees, w) :=
          match f.node? k with
          | none => ([], w)
          | some n =>
            if n.isLeaf then ((f.leaf? k).toList, w)
            else
              let w := if onCycle then w.enter k else w
              let (trees, w) := thread (fun a w ↦
                let (expansions, w) := thread (expand f cyclic bound) a.children w
                ((choices expansions).map (Tree.node a.rule k.span), w)) n.applications w
              (trees.flatten, if onCycle then w.leave else w)
        (trees, if onCycle then w else w.keep k trees)

/-- The trees below a constituent that is the first on its path. -/
def trees (f : Forest) (k : Constituent) : List Tree := (f.expand f.cyclic (f.size + 1) k {}).1

def readings (f : Forest) (start : String) : List Tree :=
  match f.root? start with
  | none => []
  | some k => f.trees k

end Forest

end Readings
