import Mathlib.Algebra.BigOperators.Group.List.Basic
import Mathlib.Algebra.Order.Ring.Nat
import Readings.Proofs.Forest.Choices
import Readings.Proofs.Forest.Sharing

/-!
Counting readings. A map between two algebras that respects what leaves, nodes and alternatives are
worth respects what every constituent is worth; taking the length of a list of trees, cut off at the
largest count, is such a map.
-/

namespace Readings

/-- The map takes what one algebra says to what the other says. -/
structure Algebra.IsHom {α β : Type} (alg : Algebra α) (alg' : Algebra β) (hom : α → β) : Prop where
  leaf : ∀ terminal token position,
    hom (alg.leaf terminal token position) = alg'.leaf terminal token position
  node : ∀ rule span below, hom (alg.node rule span below) = alg'.node rule span (below.map hom)
  sum : ∀ values, hom (alg.sum values) = alg'.sum (values.map hom)

namespace Forest

variable {α β : Type} {alg : Algebra α} {alg' : Algebra β} {hom : α → β} {f : Forest}

theorem hom_leafValue (h : alg.IsHom alg' hom) (k : Constituent) :
    hom (f.leafValue alg k) = f.leafValue alg' k := by
  unfold leafValue
  cases f.tokens[k.span.start]? with
  | none => exact h.sum []
  | some token => exact h.leaf _ _ _

theorem hom_nodeValue (h : alg.IsHom alg' hom) (k : Constituent) {below : Constituent → α}
    {below' : Constituent → β} (hbelow : ∀ child, hom (below child) = below' child) :
    hom (f.nodeValue alg k below) = f.nodeValue alg' k below' := by
  unfold nodeValue
  cases f.node? k with
  | none => exact h.sum []
  | some n =>
    dsimp only
    split
    · exact hom_leafValue h k
    · rw [h.sum, List.map_map]
      refine congrArg alg'.sum (List.map_congr_left fun a _ ↦ ?_)
      rw [Function.comp_apply, h.node, List.map_map]
      exact congrArg (alg'.node a.rule k.span) (List.map_congr_left fun child _ ↦ hbelow child)

theorem hom_plainValue (h : alg.IsHom alg' hom) (path : List Constituent) (k : Constituent) :
    hom (f.plainValue alg path k) = f.plainValue alg' path k := by
  fun_induction plainValue f alg path k with
  | case1 path k hk => rw [plainValue, if_pos hk, h.sum, List.map_nil]
  | case2 path k hk hlt ih =>
    rw [plainValue, if_neg hk, if_pos hlt]
    exact hom_nodeValue h k ih
  | case3 path k hk hlt => rw [plainValue, if_neg hk, if_neg hlt, h.sum, List.map_nil]

end Forest

open Grammar

section Saturation

theorem saturate_zero : saturate 0 = 0 := Nat.min_zero _

theorem saturate_one : saturate 1 = 1 := by decide

theorem saturate_saturate_add (m n : Nat) :
    saturate (saturate m + saturate n) = saturate (m + n) := by
  unfold saturate
  omega

/-- A factor that is cut off still exceeds the largest count, unless the other factor is zero. -/
theorem saturate_saturate_mul (m n : Nat) :
    saturate (saturate m * saturate n) = saturate (m * n) := by
  have habsorb (m n : Nat) : saturate (saturate m * n) = saturate (m * n) := by
    unfold saturate
    rcases Nat.le_total m countCap with hm | hm
    · rw [Nat.min_eq_right hm]
    · rw [Nat.min_eq_left hm]
      rcases Nat.eq_zero_or_pos n with rfl | hn
      · rfl
      · have hle : countCap ≤ countCap * n := Nat.le_mul_of_pos_right _ hn
        have hle' : countCap * n ≤ m * n := Nat.mul_le_mul_right n hm
        rw [Nat.min_eq_left hle, Nat.min_eq_left (Nat.le_trans hle hle')]
  rw [habsorb, Nat.mul_comm, habsorb, Nat.mul_comm]

theorem foldl_saturate_add (ns : List Nat) (m : Nat) :
    (ns.map saturate).foldl (fun m n ↦ saturate (m + n)) (saturate m) =
      saturate (m + ns.sum) := by
  induction ns generalizing m with
  | nil => rfl
  | cons n ns ih =>
    rw [List.map_cons, List.foldl_cons, saturate_saturate_add, ih, List.sum_cons, Nat.add_assoc]

theorem foldl_saturate_mul (ns : List Nat) (m : Nat) :
    (ns.map saturate).foldl (fun m n ↦ saturate (m * n)) (saturate m) =
      saturate (m * ns.prod) := by
  induction ns generalizing m with
  | nil => rw [List.prod_nil, Nat.mul_one]; rfl
  | cons n ns ih =>
    rw [List.map_cons, List.foldl_cons, saturate_saturate_mul, ih, List.prod_cons, Nat.mul_assoc]

theorem foldl_mul_eq_zero {ns : List Nat} {m : Nat} (h : m = 0 ∨ 0 ∈ ns) :
    ns.foldl (fun m n ↦ saturate (m * n)) m = 0 := by
  induction ns generalizing m with
  | nil => exact h.resolve_right List.not_mem_nil
  | cons n ns ih =>
    rw [List.foldl_cons]
    apply ih
    rw [List.mem_cons, ← or_assoc] at h
    refine h.imp_left fun hzero ↦ ?_
    have hproduct : m * n = 0 := Nat.mul_eq_zero.2 (hzero.imp_right Eq.symm)
    rw [hproduct, saturate_zero]

/-- A zero among the factors is not lost on a saturated one. -/
theorem saturatedProduct_eq_zero {ns : List Nat} (h : 0 ∈ ns) : saturatedProduct ns = 0 :=
  foldl_mul_eq_zero (.inr h)

example : saturatedProduct [countCap, 2, 0] = 0 := by decide

end Saturation

namespace Algebra

/-- Counting is taking the length of the list of trees, cut off at the largest count. -/
theorem isHom_counts : trees.IsHom counts (fun ts ↦ saturate ts.length) where
  leaf _ _ _ := saturate_one
  node rule span below := by
    have h := foldl_saturate_mul (below.map List.length) 1
    rw [saturate_one, List.map_map, Nat.one_mul, ← length_choices] at h
    rw [trees, counts, List.length_map]
    exact h.symm
  sum values := by
    have h := foldl_saturate_add (values.map List.length) 0
    rw [saturate_zero, List.map_map, Nat.zero_add, ← List.length_flatten] at h
    exact h.symm

end Algebra

namespace Forest

/-- Off the cycles, the number of trees is a sum over the applications and a product over the
children of each. -/
theorem length_trees {f : Forest} (hf : f.Shareable) {k : Constituent} (hk : k ∉ f.cyclic)
    {n : Node} (hn : f.node? k = some n) (hne : n.applications ≠ []) :
    (f.trees k).length = (n.applications.map fun a ↦
      (a.children.map fun child ↦ (f.trees child).length).prod).sum := by
  simp only [trees_eq_value]
  rw [value_of_notMem_cyclic hf hk, nodeValue_of_applications hn hne]
  simp only [Algebra.trees, List.length_flatten, List.map_map]
  refine congrArg List.sum (List.map_congr_left fun a _ ↦ ?_)
  rw [Function.comp_apply, List.length_map, length_choices, List.map_map]
  rfl

theorem count_eq_saturate {f : Forest} (hf : f.Shareable) (k : Constituent) :
    f.count k = saturate (f.trees k).length := by
  rw [count_eq_plainValue hf, trees_eq_plainValue hf]
  exact (hom_plainValue Algebra.isHom_counts [] k).symm

theorem readingCount_eq_saturate {f : Forest} (hf : f.Shareable) (name : String) :
    f.readingCount name = saturate (f.readings name).length := by
  rw [readingCount, readings]
  cases f.root? name with
  | none => rfl
  | some k => exact count_eq_saturate hf k

end Forest

/-- In whatever forest an enumeration gives and from whatever name, the count of readings is their
number, cut off at the largest count, though they are not built to be counted. This holds below
every constituent, so no count on the way is cut off too early, and no zero is lost. -/
theorem readingCount_exact (g : Grammar) (hg : g.Built) (start : String) (tokens : List String)
    (b : Budget) (f : Forest) (hf : enumerate g start tokens b = .ok f) (name : String) :
    f.readingCount name = min (2 ^ 128 - 1) (f.readings name).length ∧
      (f.readingCount name = 2 ^ 128 - 1 → 2 ^ 128 - 1 ≤ (f.readings name).length) ∧
      (∀ k, f.count k = min (2 ^ 128 - 1) (f.trees k).length) ∧
      ∀ ns, 0 ∈ ns → saturatedProduct ns = 0 := by
  obtain rfl := eq_forest_of_enumerate hf
  have hshare := Forest.shareable_forest hg.wellFormed tokens
  have hcount : (g.forest tokens).readingCount name =
      min (2 ^ 128 - 1) ((g.forest tokens).readings name).length :=
    Forest.readingCount_eq_saturate hshare name
  refine ⟨hcount, fun hcap ↦ ?_, Forest.count_eq_saturate hshare, fun _ ↦ saturatedProduct_eq_zero⟩
  rw [hcap] at hcount
  omega

theorem readingCount_exact_looping :
    looping.Built ∧ enumerate looping "S" ["x", "x"] .unlimited = .ok (looping.forest ["x", "x"]) ∧
      (looping.forest ["x", "x"]).readingCount "A" =
        min (2 ^ 128 - 1) ((looping.forest ["x", "x"]).readings "A").length :=
  have hf := enumerate_unlimited (by decide)
  ⟨looping_built, hf,
    (readingCount_exact looping looping_built "S" ["x", "x"] .unlimited _ hf "A").1⟩

end Readings
