import Readings.Grammar.Derivation
import Readings.Proofs.Grammar.Built
import Readings.Proofs.Tree.Tile

/-!
A category derives part of a sentence if and only if that part has a parse below the category.
-/

namespace Readings

open Readings.Span Grammar

variable {g : Grammar} {tokens : List String}

/-- Constituents side by side derive what their row of spans covers. -/
theorem Grammar.derives_of_tile {ks : List Constituent} {start stop : Nat}
    (tile : Tile (ks.map (·.span)) start stop)
    (h : ∀ k ∈ ks, g.Derives [k.category] (k.span.slice tokens)) :
    g.Derives (ks.map (·.category)) (slice ⟨start, stop⟩ tokens) := by
  induction ks generalizing start with
  | nil =>
    obtain rfl := tile_nil_iff.1 tile
    simpa [slice, width] using Derives.nil
  | cons k ks ih =>
    obtain ⟨hstart, hk, tail⟩ := tile_cons_iff.1 tile
    subst hstart
    have hrest := ih tail fun l hl ↦ h l (List.mem_cons_of_mem _ hl)
    have hfirst := h k List.mem_cons_self
    have hall := hfirst.append hrest
    rwa [slice_append tokens (Nat.le_of_lt hk) tail.le] at hall

namespace Tree

theorem parses_node_iff {rule : Rule} {span : Span} {ts : List Tree} :
    (node rule span ts).Parses g tokens ↔ rule ∈ g.rules ∧
      (ts.map constituent).map (·.category) = rule.rhs ∧
      Tile ((ts.map constituent).map (·.span)) span.start span.stop ∧
      ∀ t ∈ ts, t.Parses g tokens := by
  rw [List.map_map, List.map_map]
  constructor
  · intro h
    cases h with
    | node mem matched tile below => exact ⟨mem, matched, tile, below⟩
  · intro h
    obtain ⟨mem, matched, tile, below⟩ := h
    exact .node mem matched tile below

theorem constituent_leaf {k : Constituent} (hw : k.span.width = 1) (token : String) :
    (leaf k.category token k.span.start).constituent = k := by
  obtain ⟨category, start, stop⟩ := k
  have hstop : stop = start + 1 := by
    simp only [width] at hw
    omega
  rw [hstop]
  rfl

theorem children_ne_nil (hg : g.WellFormed) {rule : Rule} {children : List Tree}
    (mem : rule ∈ g.rules) (matched : children.map category = rule.rhs) : children ≠ [] := by
  rintro rfl
  exact hg.rhs_ne_nil rule mem matched.symm

namespace Parses

theorem start_lt_stop (hg : g.WellFormed) {t : Tree} (h : t.Parses g tokens) :
    t.span.start < t.span.stop := by
  cases h with
  | leaf => exact Nat.lt_succ_self _
  | node mem matched tile =>
    exact tile.start_lt_stop (by simpa using children_ne_nil hg mem matched)

theorem stop_le (hg : g.WellFormed) {t : Tree} (h : t.Parses g tokens) :
    t.span.stop ≤ tokens.length := by
  induction h with
  | leaf here => exact (List.getElem?_eq_some_iff.1 here).1
  | node mem matched tile _ ih =>
    refine tile.stop_le (by simpa using children_ne_nil hg mem matched) fun s hs ↦ ?_
    obtain ⟨t, ht, rfl⟩ := List.mem_map.1 hs
    exact ih t ht

end Parses

theorem Parses.derives {t : Tree} (h : t.Parses g tokens) :
    g.Derives [t.category] (t.span.slice tokens) := by
  induction h with
  | leaf here entry =>
    rw [span, slice_ofWidth_one tokens here]
    exact .token entry .nil
  | @node rule span children mem matched tile below ih =>
    obtain ⟨-, hcategory, htile, -⟩ := parses_node_iff.1 (.node mem matched tile below)
    have hbelow : ∀ k ∈ children.map constituent,
        g.Derives [k.category] (k.span.slice tokens) := by
      intro k hk
      obtain ⟨t, ht, rfl⟩ := List.mem_map.1 hk
      exact ih t ht
    have hrhs := derives_of_tile htile hbelow
    rw [hcategory] at hrhs
    rw [category, Tree.span, ← List.append_nil (slice _ _)]
    exact .rule mem hrhs .nil

end Tree

/-- What derives the next tokens of a sentence has a row of parses there. -/
theorem Grammar.Derives.exists_trees (hg : g.WellFormed) {cs ts : List String}
    (h : g.Derives cs ts) {start : Nat} (here : ts <+: tokens.drop start) :
    ∃ trees : List Tree, (∀ t ∈ trees, t.Parses g tokens) ∧ trees.map Tree.category = cs ∧
      Tile (trees.map Tree.span) start (start + ts.length) := by
  induction h generalizing start with
  | nil => exact ⟨[], by simp, rfl, .nil⟩
  | @token token category rest ts entry _ ih =>
    obtain ⟨after, hafter⟩ := here
    have htoken : tokens[start]? = some token := by
      have h := congrArg (·[0]?) hafter
      simpa using h.symm
    have hrest : ts <+: tokens.drop (start + 1) := by
      refine ⟨after, ?_⟩
      have h := congrArg (List.drop 1) hafter
      simpa [List.drop_drop] using h
    obtain ⟨trees, hparses, hcategory, htile⟩ := ih hrest
    refine ⟨.leaf category token start :: trees, ?_, ?_, ?_⟩
    · intro t ht
      rcases List.mem_cons.1 ht with rfl | ht
      · exact .leaf htoken entry
      · exact hparses t ht
    · simp [hcategory, Tree.category]
    · rw [List.length_cons, Nat.add_comm ts.length, ← Nat.add_assoc]
      exact tile_cons_iff.2 ⟨rfl, Nat.lt_succ_self start, htile⟩
  | @rule rule rest first ts mem _ _ ihead itail =>
    obtain ⟨after, hafter⟩ := here
    rw [List.append_assoc] at hafter
    have hrest : ts <+: tokens.drop (start + first.length) := by
      refine ⟨after, ?_⟩
      rw [← List.drop_drop, ← hafter, List.drop_left]
    obtain ⟨children, hc, hmatched, hctile⟩ := ihead ⟨ts ++ after, hafter⟩
    obtain ⟨trees, hparses, hcategory, htile⟩ := itail hrest
    have hlt : start < start + first.length :=
      hctile.start_lt_stop (by simpa using Tree.children_ne_nil hg mem hmatched)
    refine ⟨.node rule ⟨start, start + first.length⟩ children :: trees, ?_, ?_, ?_⟩
    · intro t ht
      rcases List.mem_cons.1 ht with rfl | ht
      · exact .node mem hmatched hctile hc
      · exact hparses t ht
    · simp [hcategory, Tree.category]
    · rw [List.length_append, ← Nat.add_assoc]
      exact tile_cons_iff.2 ⟨rfl, hlt, htile⟩

theorem exists_parse_iff (hg : g.WellFormed) (k : Constituent) :
    (∃ t : Tree, t.Parses g tokens ∧ t.constituent = k) ↔
      k.span.start < k.span.stop ∧ k.span.stop ≤ tokens.length ∧
        g.Derives [k.category] (k.span.slice tokens) := by
  constructor
  · rintro ⟨t, ht, rfl⟩
    exact ⟨ht.start_lt_stop hg, ht.stop_le hg, ht.derives⟩
  · rintro ⟨hlt, hle, h⟩
    obtain ⟨trees, hparses, hcategory, htile⟩ := h.exists_trees hg (List.take_prefix _ _)
    rw [length_slice tokens hle] at htile
    obtain ⟨t, rfl⟩ : ∃ t, trees = [t] := List.length_eq_one_iff.1 (by
      simpa using congrArg List.length hcategory)
    have hspan := (tile_singleton_iff.1 htile).1
    have hstop : k.span.start + k.span.width = k.span.stop := by
      rw [width]
      omega
    refine ⟨t, hparses t List.mem_cons_self, ?_⟩
    rw [Tree.constituent, hspan, hstop, (List.cons.inj hcategory).1]

/-- The trees are leaves over the tokens, in the places given with them. -/
def LeavesOver (leaves : List Tree) (places : List (String × Nat)) : Prop :=
  List.Forall₂ (fun leaf (token, position) ↦ ∃ terminal, leaf = .leaf terminal token position)
    leaves places

namespace Tree

/-- A leaf reads its token as one of the categories of the token. -/
theorem Parses.entry_of_mem_leaves {t : Tree} (h : t.Parses g tokens)
    {terminal token : String} {position : Nat}
    (hleaf : Tree.leaf terminal token position ∈ t.leaves) :
    ⟨token, terminal⟩ ∈ g.lexicon.entries := by
  induction h with
  | leaf here entry =>
    cases List.mem_singleton.1 hleaf
    exact entry
  | node mem matched tile below ih =>
    rw [leaves, fold_node, List.mem_flatten] at hleaf
    obtain ⟨_, hmap, hleaf⟩ := hleaf
    obtain ⟨child, hchild, rfl⟩ := List.mem_map.1 hmap
    exact ih child hchild hleaf

theorem tokens_of_tile {ts : List Tree} {start stop : Nat} (tile : Tile (ts.map span) start stop)
    (h : ∀ t ∈ ts, t.tokens = t.span.slice tokens) :
    (ts.map Tree.tokens).flatten = slice ⟨start, stop⟩ tokens := by
  induction ts generalizing start with
  | nil =>
    obtain rfl := tile_nil_iff.1 tile
    simp [slice, width]
  | cons t ts ih =>
    obtain ⟨hstart, ht, tail⟩ := tile_cons_iff.1 tile
    subst hstart
    obtain ⟨hfirst, hrest⟩ := List.forall_mem_cons.1 h
    rw [List.map_cons, List.flatten_cons, hfirst, ih tail hrest,
      slice_append tokens (Nat.le_of_lt ht) tail.le]

theorem Parses.tokens_eq {t : Tree} (h : t.Parses g tokens) :
    t.tokens = t.span.slice tokens := by
  induction h with
  | leaf here => exact (slice_ofWidth_one tokens here).symm
  | node mem matched tile below ih =>
    rw [Tree.tokens, fold_node]
    exact tokens_of_tile tile ih

theorem Parses.tokens_ne_nil (hg : g.WellFormed) {t : Tree} (h : t.Parses g tokens) :
    t.tokens ≠ [] := by
  rw [h.tokens_eq, ← List.length_pos_iff, length_slice tokens (h.stop_le hg), width]
  exact Nat.sub_pos_of_lt (h.start_lt_stop hg)

theorem leaves_of_tile {ts : List Tree} {start stop : Nat} (tile : Tile (ts.map span) start stop)
    (hn : ∀ t ∈ ts, t.span.stop ≤ tokens.length)
    (h : ∀ t ∈ ts, LeavesOver t.leaves ((t.span.slice tokens).zipIdx t.span.start)) :
    LeavesOver (ts.map leaves).flatten ((slice ⟨start, stop⟩ tokens).zipIdx start) := by
  induction ts generalizing start with
  | nil =>
    obtain rfl := tile_nil_iff.1 tile
    simp [LeavesOver, slice, width]
  | cons t ts ih =>
    obtain ⟨hstart, ht, tail⟩ := tile_cons_iff.1 tile
    subst hstart
    have hrest := ih tail (fun u hu ↦ hn u (List.mem_cons_of_mem _ hu))
      (fun u hu ↦ h u (List.mem_cons_of_mem _ hu))
    have hstop : t.span.stop = t.span.start + (t.span.slice tokens).length := by
      rw [length_slice tokens (hn t List.mem_cons_self)]
      rw [width]
      omega
    rw [← slice_append tokens (Nat.le_of_lt ht) tail.le, List.zipIdx_append, ← hstop]
    exact List.rel_append (h t List.mem_cons_self) hrest

theorem Parses.leavesOver (hg : g.WellFormed) {t : Tree} (h : t.Parses g tokens) :
    LeavesOver t.leaves ((t.span.slice tokens).zipIdx t.span.start) := by
  induction h with
  | @leaf terminal token position here entry =>
    rw [span, slice_ofWidth_one tokens here]
    exact .cons ⟨terminal, rfl⟩ .nil
  | node mem matched tile below ih =>
    rw [leaves, fold_node]
    exact leaves_of_tile tile (fun t ht ↦ (below t ht).stop_le hg) ih

end Tree

end Readings
