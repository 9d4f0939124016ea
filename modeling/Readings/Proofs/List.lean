import Mathlib.Algebra.BigOperators.Group.Multiset.Basic
import Mathlib.Algebra.Order.Ring.Nat
import Mathlib.Data.List.Forall2
import Mathlib.Data.List.Nodup

/-!
Lists: what the proofs need beside the library.
-/

namespace Readings

variable {α β : Type}

theorem nodup_of_pairwise_lt {key : α → Nat} {xs : List α} (h : xs.Pairwise (key · < key ·)) :
    xs.Nodup :=
  h.imp fun hlt he ↦ Nat.ne_of_lt hlt (congrArg key he)

theorem eraseDups_concat [DecidableEq α] (xs : List α) (x : α) :
    (xs ++ [x]).eraseDups = if x ∈ xs then xs.eraseDups else xs.eraseDups ++ [x] := by
  rw [List.eraseDups_append]
  by_cases hx : x ∈ xs
  · simp [List.removeAll, hx]
  · simp [List.removeAll, hx, List.eraseDups_cons]

/-- The elements are kept in the order in which they are first met. -/
theorem eraseDups_pairwise_idxOf [DecidableEq α] (xs : List α) :
    xs.eraseDups.Pairwise (xs.idxOf · < xs.idxOf ·) := by
  -- from the end, as a new element comes after all that are kept
  induction xs using List.reverseRecOn with
  | nil => exact .nil
  | append_singleton xs x ih =>
    have hold {a : α} (ha : a ∈ xs.eraseDups) : (xs ++ [x]).idxOf a = xs.idxOf a :=
      List.idxOf_append_of_mem (List.mem_eraseDups.1 ha)
    have hkept : xs.eraseDups.Pairwise ((xs ++ [x]).idxOf · < (xs ++ [x]).idxOf ·) := by
      refine ih.imp_of_mem fun ha hb h ↦ ?_
      rw [hold ha, hold hb]
      exact h
    rw [eraseDups_concat]
    split
    · exact hkept
    next hx =>
      rw [List.pairwise_append]
      refine ⟨hkept, List.pairwise_singleton .., fun a ha b hb ↦ ?_⟩
      rw [List.mem_singleton.1 hb, hold ha, List.idxOf_append_of_notMem hx]
      exact Nat.lt_add_right _ (List.idxOf_lt_length_of_mem (List.mem_eraseDups.1 ha))

theorem nodup_eraseDups [DecidableEq α] (xs : List α) : xs.eraseDups.Nodup :=
  nodup_of_pairwise_lt (eraseDups_pairwise_idxOf xs)

/-- A column of a list in which another column is fixed is ordered as the list is. -/
theorem pairwise_map_filter {xs : List α} {R : α → α → Prop} (h : xs.Pairwise R) {p : α → Bool}
    {f : α → β} {back : β → α} (hback : ∀ x, p x → back (f x) = x) :
    ((xs.filter p).map f).Pairwise fun y y' ↦ R (back y) (back y') := by
  rw [List.pairwise_map]
  refine (h.filter p).imp_of_mem fun {x x'} hx hx' hR ↦ ?_
  rw [hback x (List.of_mem_filter hx), hback x' (List.of_mem_filter hx')]
  exact hR

/-- What is searched by a key that no two elements share is found if it is there. -/
theorem find?_key_eq_some_iff [DecidableEq β] {xs : List α} {key : α → β}
    (h : (xs.map key).Nodup) {k : β} {x : α} :
    xs.find? (key · == k) = some x ↔ x ∈ xs ∧ key x = k := by
  constructor
  · intro hx
    exact ⟨List.mem_of_find?_eq_some hx, by simpa using List.find?_some hx⟩
  · rintro ⟨hx, rfl⟩
    obtain ⟨y, hy⟩ : ∃ y, xs.find? (key · == key x) = some y :=
      Option.isSome_iff_exists.1 (List.find?_isSome.2 ⟨x, hx, beq_self_eq_true (key x)⟩)
    have hkey : key y = key x := by simpa using List.find?_some hy
    rw [hy, List.inj_on_of_nodup_map h (List.mem_of_find?_eq_some hy) hx hkey]

theorem mem_of_lookup_eq_some [BEq α] [LawfulBEq α] {xs : List (α × β)} {k : α} {v : β}
    (h : xs.lookup k = some v) : (k, v) ∈ xs := by
  obtain ⟨before, after, rfl, -⟩ := List.lookup_eq_some_iff.1 h
  simp

/-- What a key is looked up for is found if it is there with nothing else under the same key. -/
theorem lookup_eq_some_iff_mem [BEq α] [LawfulBEq α] {xs : List (α × β)} {k : α} {v : β}
    (h : ∀ v', (k, v') ∈ xs → v' = v) : xs.lookup k = some v ↔ (k, v) ∈ xs := by
  refine ⟨mem_of_lookup_eq_some, fun hmem ↦ ?_⟩
  obtain ⟨v', hv'⟩ := Option.isSome_iff_exists.1
    (List.lookup_isSome_iff.2 ⟨(k, v), hmem, beq_self_eq_true k⟩)
  rw [hv', h v' (mem_of_lookup_eq_some hv')]

theorem take_succ_eq {xs : List α} {i : Nat} {x : α} (h : xs[i]? = some x) :
    xs.take (i + 1) = xs.take i ++ [x] := by
  rw [List.take_add_one, h]
  rfl

theorem exists_append_of_getElem? {xs : List α} {i : Nat} {x : α} (h : xs[i]? = some x) :
    ∃ before after, xs = before ++ x :: after ∧ before.length = i := by
  obtain ⟨hi, rfl⟩ := List.getElem?_eq_some_iff.1 h
  refine ⟨xs.take i, xs.drop (i + 1), ?_, List.length_take_of_le hi.le⟩
  rw [List.getElem_cons_drop, List.take_append_drop]

theorem zipIdx_pairwise (xs : List α) (k : Nat) : (xs.zipIdx k).Pairwise (·.2 < ·.2) := by
  induction xs generalizing k with
  | nil => exact .nil
  | cons x xs ih => exact .cons (fun _ hp ↦ List.le_snd_of_mem_zipIdx hp) (ih (k + 1))

theorem flatMap_zipIdx_fst (xs : List α) (k : Nat) (f : α → List β) :
    (xs.zipIdx k).flatMap (f ·.1) = xs.flatMap f := by
  rw [← List.flatMap_map Prod.fst f, List.zipIdx_map_fst]

theorem filterMap_zipIdx_fst (xs : List α) (k : Nat) (f : α → Option β) :
    (xs.zipIdx k).filterMap (f ·.1) = xs.filterMap f := by
  conv_rhs => rw [← List.zipIdx_map_fst k xs, List.filterMap_map]
  rfl

theorem isSome_mapM_iff {f : α → Option β} {xs : List α} :
    (xs.mapM f).isSome ↔ ∀ x ∈ xs, (f x).isSome := by
  induction xs with
  | nil => simp
  | cons x xs ih =>
    rw [List.mapM_cons, List.forall_mem_cons, ← ih]
    cases f x <;> cases xs.mapM f <;> simp

theorem mapM_eq_some_iff {f : α → Option β} {xs : List α} {ys : List β} :
    xs.mapM f = some ys ↔ xs.map f = ys.map some := by
  induction xs generalizing ys with
  | nil => cases ys <;> simp
  | cons x xs ih =>
    rw [List.mapM_cons]
    cases hx : f x with
    | none => cases ys <;> simp [hx]
    | some y =>
      cases ys with
      | nil => cases xs.mapM f <;> simp
      | cons z zs => cases hxs : xs.mapM f <;> simp [hx, ← ih, hxs]

theorem foldl_max_le_iff {xs : List Nat} {m n : Nat} :
    xs.foldl max m ≤ n ↔ m ≤ n ∧ ∀ x ∈ xs, x ≤ n := by
  induction xs generalizing m with
  | nil => simp
  | cons x xs ih => rw [List.foldl_cons, ih, Nat.max_le, List.forall_mem_cons, and_assoc]

theorem foldl_max_map_succ (xs : List Nat) (m : Nat) :
    (xs.map (· + 1)).foldl max (m + 1) = xs.foldl max m + 1 := by
  induction xs generalizing m with
  | nil => rfl
  | cons x xs ih => rw [List.map_cons, List.foldl_cons, List.foldl_cons, Nat.add_max_add_right, ih]

theorem countP_lt_countP {p q : α → Bool} {xs : List α} (h : ∀ x ∈ xs, p x → q x) {x : α}
    (hx : x ∈ xs) (hp : ¬ p x) (hq : q x) : xs.countP p < xs.countP q := by
  obtain ⟨before, after, rfl⟩ := List.append_of_mem hx
  obtain ⟨hbefore, hafter⟩ := List.forall_mem_append.1 h
  have hle := List.countP_mono_left hbefore
  have hle' := List.countP_mono_left (List.forall_mem_cons.1 hafter).2
  simp only [List.countP_append, List.countP_cons_of_pos hq, List.countP_cons_of_neg hp]
  omega

/-- What adds nothing to a list that is put together need not be kept. -/
theorem flatMap_filter_of_eq_nil {xs : List α} {p : α → Bool} {f : α → List β}
    (h : ∀ x ∈ xs, ¬ p x → f x = []) : (xs.filter p).flatMap f = xs.flatMap f := by
  induction xs with
  | nil => rfl
  | cons x xs ih =>
    obtain ⟨hx, hxs⟩ := List.forall_mem_cons.1 h
    rw [List.filter_cons, List.flatMap_cons, ← ih hxs]
    cases hp : p x with
    | true => rfl
    | false => simp [hx (by simp [hp])]

theorem sum_map_sum_comm (xs : List α) (ys : List β) (f : α → β → Nat) :
    (xs.map fun x ↦ (ys.map (f x)).sum).sum = (ys.map fun y ↦ (xs.map (f · y)).sum).sum :=
  Multiset.sum_map_sum_map (xs : Multiset α) (ys : Multiset β)

/-- Two maps that undo each other on two lists without repetition carry one list to the other. -/
theorem map_perm_of_inverse {xs : List α} {ys : List β} (hxs : xs.Nodup) (hys : ys.Nodup)
    {f : α → β} {g : β → α} (hf : ∀ x ∈ xs, f x ∈ ys ∧ g (f x) = x)
    (hg : ∀ y ∈ ys, g y ∈ xs ∧ f (g y) = y) : (xs.map f).Perm ys := by
  have hinj : (xs.map f).Nodup := by
    refine hxs.map_on fun x hx x' hx' he ↦ ?_
    rw [← (hf x hx).2, he, (hf x' hx').2]
  refine (List.perm_ext_iff_of_nodup hinj hys).2 fun y ↦ ?_
  rw [List.mem_map]
  constructor
  · intro hy
    obtain ⟨x, hx, rfl⟩ := hy
    exact (hf x hx).1
  · intro hy
    exact ⟨g y, hg y hy⟩

theorem forall₂_and_eq_iff {p : α → Prop} {place : α → β} {xs : List α} {ys : List β} :
    List.Forall₂ (fun x y ↦ p x ∧ place x = y) xs ys ↔ (∀ x ∈ xs, p x) ∧ xs.map place = ys := by
  rw [List.forall₂_and_left, ← List.forall₂_eq_eq_eq, List.forall₂_map_left_iff]

end Readings
