import Mathlib.Algebra.Order.BigOperators.Group.List
import Mathlib.Algebra.Order.Ring.Nat
import Mathlib.Order.Lattice.Nat
import Mathlib.Tactic.Choose
import Readings.Proofs.Tree.Derivation

/-!
Parses without repetition. What has a parse has one in which no constituent stands below itself:
in a parse of least size, the parts have parses of smaller size than the whole.
-/

namespace Readings.Tree

open Readings.Span Grammar

/-- No constituent of the path stands on a path of the tree, or twice on one. -/
def SimpleBelow (path : List Constituent) (t : Tree) : Prop :=
  ∀ p ∈ t.paths, (p.reverse ++ path).Nodup

theorem simpleBelow_nil_iff {t : Tree} : t.SimpleBelow [] ↔ t.Simple := by
  simp [SimpleBelow, Simple]

theorem simpleBelow_leaf_iff {path : List Constituent} {terminal token : String}
    {position : Nat} :
    (leaf terminal token position).SimpleBelow path ↔
      ⟨terminal, ofWidth position 1⟩ ∉ path ∧ path.Nodup := by
  simp [SimpleBelow]

theorem simpleBelow_node_iff {path : List Constituent} {rule : Rule} {span : Span}
    {children : List Tree} :
    (node rule span children).SimpleBelow path ↔
      ∀ t ∈ children, t.SimpleBelow (⟨rule.lhs, span⟩ :: path) := by
  simp only [SimpleBelow, paths_node, List.mem_map, List.mem_flatMap]
  constructor
  · intro h t ht p hp
    simpa using h _ ⟨p, ⟨t, ht, hp⟩, rfl⟩
  · rintro h _ ⟨p, ⟨t, ht, hp⟩, rfl⟩
    simpa using h t ht p hp

def size : Tree → Nat := fold (fun _ _ _ ↦ 1) (fun _ _ sizes ↦ sizes.sum + 1)

theorem size_lt_of_mem (rule : Rule) (span : Span) {children : List Tree} {t : Tree}
    (ht : t ∈ children) : t.size < (node rule span children).size := by
  have hle : t.size ≤ (children.map size).sum := List.le_sum_of_mem (List.mem_map_of_mem ht)
  rw [size, fold_node]
  exact Nat.lt_succ_of_le hle

variable {g : Grammar} {tokens : List String}

namespace Parses

theorem exists_path (hg : g.WellFormed) {t : Tree} (h : t.Parses g tokens) : ∃ p, p ∈ t.paths := by
  induction h with
  | leaf => exact ⟨_, List.mem_singleton_self _⟩
  | @node rule span children mem matched tile _ ih =>
    obtain ⟨t, ht⟩ := List.exists_mem_of_ne_nil _ (children_ne_nil hg mem matched)
    obtain ⟨p, hp⟩ := ih t ht
    rw [paths_node]
    exact ⟨_, List.mem_map_of_mem (List.mem_flatMap.2 ⟨t, ht, hp⟩)⟩

/-- The root of a tree that repeats nothing below a path is not on the path. -/
theorem constituent_notMem (hg : g.WellFormed) {t : Tree} (h : t.Parses g tokens)
    {path : List Constituent} (hs : t.SimpleBelow path) : t.constituent ∉ path := by
  obtain ⟨p, hp⟩ := h.exists_path hg
  have hd := (List.nodup_append.1 (hs p hp)).2.2
  have hroot : t.constituent ∈ p := by
    cases t with
    | leaf terminal token position =>
      rw [paths_leaf, List.mem_singleton] at hp
      exact hp ▸ List.mem_cons_self
    | node rule span children =>
      rw [paths_node] at hp
      obtain ⟨p, -, rfl⟩ := List.mem_map.1 hp
      exact List.mem_cons_self
  exact fun hk ↦ hd _ (List.mem_reverse.2 hroot) _ hk rfl

end Parses

/-- The size of the smallest parses of a constituent. -/
noncomputable def leastSize (g : Grammar) (tokens : List String) (k : Constituent) : Nat :=
  sInf {n | ∃ t : Tree, t.Parses g tokens ∧ t.constituent = k ∧ t.size = n}

namespace Parses

theorem leastSize_le {t : Tree} (h : t.Parses g tokens) :
    leastSize g tokens t.constituent ≤ t.size :=
  Nat.sInf_le ⟨t, h, rfl, rfl⟩

theorem exists_least {t : Tree} (h : t.Parses g tokens) :
    ∃ u : Tree, u.Parses g tokens ∧ u.constituent = t.constituent ∧
      u.size = leastSize g tokens t.constituent :=
  Nat.sInf_mem (s := {n | ∃ u : Tree, u.Parses g tokens ∧ u.constituent = t.constituent ∧
    u.size = n}) ⟨t.size, t, h, rfl, rfl⟩

/-- Some parse of a constituent has falling least sizes along each of its paths. -/
theorem exists_falling {t : Tree} (h : t.Parses g tokens) :
    ∃ u : Tree, u.Parses g tokens ∧ u.constituent = t.constituent ∧
      ∀ p ∈ u.paths, p.Pairwise (fun k l ↦ leastSize g tokens l < leastSize g tokens k) ∧
        ∀ k ∈ p, leastSize g tokens k ≤ leastSize g tokens t.constituent := by
  induction hn : leastSize g tokens t.constituent using Nat.strong_induction_on generalizing t with
  | _ n ih =>
    obtain ⟨u, hu, hk, hsize⟩ := h.exists_least
    rw [← hk] at hn ⊢
    cases u with
    | leaf terminal token position =>
      refine ⟨_, hu, rfl, fun p hp ↦ ?_⟩
      obtain rfl := List.mem_singleton.1 hp
      refine ⟨List.pairwise_singleton _ _, fun k hk ↦ ?_⟩
      obtain rfl := List.mem_singleton.1 hk
      exact hn.le
    | node rule span children =>
      obtain ⟨mem, matched, tile, below⟩ := parses_node_iff.1 hu
      have hsmaller : ∀ c ∈ children, leastSize g tokens c.constituent < n := by
        intro c hc
        have hlt := size_lt_of_mem rule span hc
        have hle := (below c hc).leastSize_le
        rw [hsize, ← hk, hn] at hlt
        exact hle.trans_lt hlt
      have hparts := fun c hc ↦ ih _ (hsmaller c hc) (below c hc) rfl
      choose! part hparse hpart hpaths using hparts
      have hsame : (children.map part).map constituent = children.map constituent := by
        rw [List.map_map]
        exact List.map_congr_left hpart
      refine ⟨.node rule span (children.map part), ?_, rfl, ?_⟩
      · rw [parses_node_iff, hsame]
        refine ⟨mem, matched, tile, fun t ht ↦ ?_⟩
        obtain ⟨c, hc, rfl⟩ := List.mem_map.1 ht
        exact hparse c hc
      · intro p hp
        rw [paths_node] at hp
        obtain ⟨q, hq, rfl⟩ := List.mem_map.1 hp
        obtain ⟨t, ht, hq⟩ := List.mem_flatMap.1 hq
        obtain ⟨c, hc, rfl⟩ := List.mem_map.1 ht
        obtain ⟨hpair, hle⟩ := hpaths c hc q hq
        have hlt : ∀ k ∈ q, leastSize g tokens k < n := fun k hk ↦
          (hle k hk).trans_lt (hsmaller c hc)
        refine ⟨List.pairwise_cons.2 ⟨fun l hl ↦ (hlt l hl).trans_eq hn.symm, hpair⟩, ?_⟩
        intro k hk
        rcases List.mem_cons.1 hk with rfl | hk
        · exact hn.le
        · exact (hlt k hk).le

theorem exists_simple {t : Tree} (h : t.Parses g tokens) :
    ∃ u : Tree, u.Parses g tokens ∧ u.constituent = t.constituent ∧ u.Simple := by
  obtain ⟨u, hu, hk, hpaths⟩ := h.exists_falling
  refine ⟨u, hu, hk, fun p hp ↦ (hpaths p hp).1.imp fun {k l} hlt he ↦ ?_⟩
  exact Nat.lt_irrefl _ (he ▸ hlt)

end Parses

end Readings.Tree
