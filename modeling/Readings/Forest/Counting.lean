import Readings.Forest.Walk

/-!
The number of readings, found without building them. It saturates instead of overflowing.
-/

namespace Readings

def countCap : Nat := Nat.pow 2 128 - 1

def saturate (n : Nat) : Nat := min countCap n

/-- The counts of children are multiplied. -/
def saturatedProduct (ns : List Nat) : Nat := ns.foldl (fun m n ↦ saturate (m * n)) 1

/-- The counts of alternatives are added. -/
def saturatedSum (ns : List Nat) : Nat := ns.foldl (fun m n ↦ saturate (m + n)) 0

namespace Forest

/-- The number of trees below a constituent that a walk comes to. The first number bounds the chain
of constituents that is still to come. -/
def countBelow (f : Forest) (cyclic : Std.HashSet Constituent) :
    Nat → Constituent → Walk Nat → Nat × Walk Nat
  | 0, _, w => (0, w)
  | bound + 1, k, w =>
    match w.memo[k]? with
    | some count => (count, w)
    | none =>
      let onCycle := cyclic.contains k
      if onCycle && w.path.contains k then (0, w)
      else
        let (count, w) :=
          match f.node? k with
          | none => (0, w)
          | some n =>
            if n.isLeaf then (1, w)
            else
              let w := if onCycle then w.enter k else w
              let (counts, w) := thread (fun a w ↦
                let (counts, w) := thread (countBelow f cyclic bound) a.children w
                (saturatedProduct counts, w)) n.applications w
              (saturatedSum counts, if onCycle then w.leave else w)
        (count, if onCycle then w else w.keep k count)

/-- The number of trees below a constituent that is the first on its path. -/
def count (f : Forest) (k : Constituent) : Nat := (f.countBelow f.cyclic (f.size + 1) k {}).1

def readingCount (f : Forest) (start : String) : Nat :=
  match f.root? start with
  | none => 0
  | some k => f.count k

end Forest

end Readings
