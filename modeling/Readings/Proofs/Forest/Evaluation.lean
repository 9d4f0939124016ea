import Readings.Forest.Counting
import Readings.Forest.Reading

/-!
Evaluating a forest. An algebra says what a leaf, a node over the values of its children and a
choice between several derivations are worth; the value of a constituent is then put together from
all of its derivations that repeat no constituent on a path from the root to a leaf.

`Forest.plainValue` states this directly: it carries the whole path along and is worth nothing on a
repetition. `Forest.sharedValue` is the walk that keeps what it finds. Expanding and counting are
such walks, each in its own algebra.
-/

namespace Readings

/-- What the parts of a forest are worth. Without any derivation the value is `sum []`. -/
structure Algebra (α : Type) where
  leaf : (terminal token : String) → (position : Nat) → α
  node : Rule → Span → List α → α
  sum : List α → α

namespace Algebra

/-- Lists of trees in the order in which a forest keeps its applications. -/
def trees : Algebra (List Tree) where
  leaf terminal token position := [.leaf terminal token position]
  node rule span below := (choices below).map (.node rule span)
  sum := List.flatten

/-- Saturating counts. -/
def counts : Algebra Nat where
  leaf _ _ _ := 1
  node _ _ := saturatedProduct
  sum := saturatedSum

end Algebra

namespace Forest

section Value

variable {α : Type} (f : Forest) (alg : Algebra α)

def leafValue (k : Constituent) : α :=
  match f.tokens[k.span.start]? with
  | some token => alg.leaf k.category token k.span.start
  | none => alg.sum []

/-- What a node is worth if this is what the constituents below it are worth. -/
def nodeValue (k : Constituent) (below : Constituent → α) : α :=
  match f.node? k with
  | none => alg.sum []
  | some n =>
    if n.isLeaf then f.leafValue alg k
    else alg.sum <| n.applications.map fun a ↦ alg.node a.rule k.span (a.children.map below)

/-- The value below a path of constituents, without sharing. A path that repeats nothing is never
longer than the forest has nodes. -/
def plainValue (path : List Constituent) (k : Constituent) : α :=
  if k ∈ path then alg.sum []
  else if path.length < f.size then f.nodeValue alg k (plainValue (k :: path))
  else alg.sum []
termination_by f.size - path.length
decreasing_by simp only [List.length_cons]; omega

/-- What one application of a node is worth, from left to right. -/
def threadedApplication {σ : Type} (k : Constituent) (below : Constituent → σ → α × σ)
    (a : Application) (s : σ) : α × σ :=
  let (values, s) := thread below a.children s
  (alg.node a.rule k.span values, s)

/-- What a node is worth, with a state that is threaded through all that is below it. -/
def threadedValue {σ : Type} (k : Constituent) (below : Constituent → σ → α × σ) (s : σ) : α × σ :=
  match f.node? k with
  | none => (alg.sum [], s)
  | some n =>
    if n.isLeaf then (f.leafValue alg k, s)
    else
      let (values, s) := thread (threadedApplication alg k below) n.applications s
      (alg.sum values, s)

/-- The value of a constituent in the course of a walk. The number bounds the chain of constituents
that is still to come. -/
def sharedValue (cyclic : Std.HashSet Constituent) : Nat → Constituent → Walk α → α × Walk α
  | 0, _, w => (alg.sum [], w)
  | n + 1, k, w =>
    match w.memo[k]? with
    | some value => (value, w)
    | none =>
      if cyclic.contains k then
        if w.path.contains k then (alg.sum [], w)
        else
          let (value, w) := f.threadedValue alg k (sharedValue cyclic n) (w.enter k)
          (value, w.leave)
      else
        let (value, w) := f.threadedValue alg k (sharedValue cyclic n) w
        (value, w.keep k value)

def value (k : Constituent) : α := (f.sharedValue alg f.cyclic (f.size + 1) k {}).1

end Value

variable {α : Type} {f : Forest} {alg : Algebra α} {cyclic : Std.HashSet Constituent} {n : Nat}
variable {k : Constituent}

/-- A visit in the way in which expanding and counting make it: only a constituent that has
applications is entered, since one that is entered and left again leaves no trace. -/
theorem sharedValue_succ (w : Walk α) :
    f.sharedValue alg cyclic (n + 1) k w =
      match w.memo[k]? with
      | some value => (value, w)
      | none =>
        if cyclic.contains k && w.path.contains k then (alg.sum [], w)
        else
          let (value, w) :=
            match f.node? k with
            | none => (alg.sum [], w)
            | some m =>
              if m.isLeaf then (f.leafValue alg k, w)
              else
                let w := if cyclic.contains k then w.enter k else w
                let (values, w) := thread (threadedApplication alg k
                  (f.sharedValue alg cyclic n)) m.applications w
                (alg.sum values, if cyclic.contains k then w.leave else w)
          (value, if cyclic.contains k then w else w.keep k value) := by
  rw [sharedValue]
  cases w.memo[k]? with
  | some value => rfl
  | none =>
    simp only [threadedValue]
    cases cyclic.contains k <;> cases w.path.contains k <;> cases f.node? k with
    | none => rfl
    | some m =>
      cases hleaf : m.isLeaf <;> simp only [hleaf, Bool.and_true, Bool.and_false,
        Bool.false_eq_true, if_true, if_false] <;> rfl

theorem leafValue_trees (k : Constituent) :
    f.leafValue Algebra.trees k = (f.leaf? k).toList := by
  rw [leafValue, leaf?]
  cases f.tokens[k.span.start]? <;> rfl

theorem leafValue_counts (h : (f.tokens[k.span.start]?).isSome) :
    f.leafValue Algebra.counts k = 1 := by
  obtain ⟨token, htoken⟩ := Option.isSome_iff_exists.1 h
  rw [leafValue, htoken]
  rfl

/-- Expanding is evaluating in the algebra of trees. -/
theorem expand_eq_sharedValue (cyclic : Std.HashSet Constituent) (n : Nat) (k : Constituent)
    (w : Walk (List Tree)) :
    f.expand cyclic n k w = f.sharedValue Algebra.trees cyclic n k w := by
  induction n generalizing k w with
  | zero => rfl
  | succ n ih =>
    have hbelow : f.expand cyclic n = f.sharedValue Algebra.trees cyclic n :=
      funext fun k ↦ funext (ih k)
    rw [expand, hbelow, sharedValue_succ, leafValue_trees]
    cases w.memo[k]? with
    | some trees => rfl
    | none => rfl

theorem trees_eq_value (k : Constituent) : f.trees k = f.value Algebra.trees k :=
  congrArg Prod.fst (expand_eq_sharedValue f.cyclic (f.size + 1) k {})

/-- Counting is evaluating in the algebra of counts, provided that every leaf has a token to stand
for: the count of a leaf does not look at it. -/
theorem countBelow_eq_sharedValue
    (htoken : ∀ k n, f.node? k = some n → n.isLeaf → (f.tokens[k.span.start]?).isSome)
    (cyclic : Std.HashSet Constituent) (n : Nat) (k : Constituent) (w : Walk Nat) :
    f.countBelow cyclic n k w = f.sharedValue Algebra.counts cyclic n k w := by
  induction n generalizing k w with
  | zero => rfl
  | succ n ih =>
    have hbelow : f.countBelow cyclic n = f.sharedValue Algebra.counts cyclic n :=
      funext fun k ↦ funext (ih k)
    rw [countBelow, hbelow, sharedValue_succ]
    cases w.memo[k]? with
    | some count => rfl
    | none =>
      cases hm : f.node? k with
      | none => rfl
      | some m =>
        cases hleaf : m.isLeaf with
        | false =>
          simp only [hleaf]
          rfl
        | true =>
          simp only [hleaf, leafValue_counts (htoken k m hm hleaf)]
          rfl

end Forest

end Readings
