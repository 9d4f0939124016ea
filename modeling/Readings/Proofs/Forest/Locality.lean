import Readings.Proofs.Chart.Discovery
import Readings.Proofs.Chart.Shift
import Readings.Proofs.Forest.Exact

/-!
What a forest holds over a part of a sentence is the forest of that part. The rest of the sentence
and the place of the part in it make no difference.
-/

namespace Readings

open Readings.Span Grammar

variable {g : Grammar} {tokens tokens' : List String}

theorem Chart.terminalNodes_eq {s s' : Span} (hs : s.InSentence tokens.length)
    (hs' : s'.InSentence tokens'.length) (hslice : s.slice tokens = s'.slice tokens') :
    terminalNodes g tokens s = terminalNodes g tokens' s' := by
  have hwidth : s.width = s'.width := by
    rw [← length_slice tokens hs.2, hslice, length_slice tokens' hs'.2]
  rw [terminalNodes, terminalNodes, ← hwidth]
  split
  · rename_i hone
    rw [← getElem?_slice_zero tokens (by omega), hslice, getElem?_slice_zero tokens' (by omega)]
  · rfl

namespace Forest

section Cells

variable (hg : g.WellFormed)
include hg

/-- A row of nodes for some categories is there if the categories derive what it covers. -/
theorem exists_matches_iff_derives {categories : List String} {s : Span}
    (hs : s.InSentence tokens.length) :
    (∃ row, (g.forest tokens).chart.Matches categories s.start s.stop row) ↔
      g.Derives categories (s.slice tokens) := by
  constructor
  · intro h
    obtain ⟨row, hcategories, htile, hhas⟩ := h
    rw [← hcategories]
    refine derives_of_tile htile fun k hk ↦ ?_
    have hnode := hhas k hk
    rw [← isSome_node?, isSome_node?_iff_derives hg] at hnode
    exact hnode.2
  · intro h
    obtain ⟨trees, hparses, hcategories, htile⟩ := h.exists_trees hg (List.take_prefix _ _)
    have hstop : s.start + (s.slice tokens).length = s.stop := by
      obtain ⟨hlt, hle⟩ := hs
      rw [length_slice tokens hle, width]
      omega
    rw [hstop] at htile
    rw [← hcategories]
    exact ⟨_, matches_map_constituent htile fun t ht ↦ has_of_parses hg (hparses t ht)⟩

theorem wholeMatches_eq_nil_iff {rule : Rule} (hr : rule ∈ g.rules) (harity : 2 ≤ rule.arity)
    {s : Span} (hs : s.InSentence tokens.length) :
    (g.forest tokens).chart.wholeMatches rule s = [] ↔ ¬ g.Derives rule.rhs (s.slice tokens) := by
  rw [← exists_matches_iff_derives hg hs, List.eq_nil_iff_forall_not_mem, not_exists]
  simp only [(grown g tokens).mem_wholeMatches_iff hg hr harity (Nat.le_succ_of_le hs.width_le)]

/-- The order of the categories in a cell depends only on the tokens that it covers. -/
theorem map_category_cell {s s' : Span} (hs : s.InSentence tokens.length)
    (hs' : s'.InSentence tokens'.length) (hslice : s.slice tokens = s'.slice tokens') :
    ((g.forest tokens).chart.cell s).nodes.map (·.category) =
      ((g.forest tokens').chart.cell s').nodes.map (·.category) := by
  rw [grown g tokens s, grown g tokens' s', if_pos ⟨hs, hs.width_le⟩, if_pos ⟨hs', hs'.width_le⟩]
  refine Chart.map_category_cellOver (Chart.terminalNodes_eq hs hs' hslice) fun rule hr harity ↦ ?_
  rw [wholeMatches_eq_nil_iff hg hr harity hs, wholeMatches_eq_nil_iff hg hr harity hs', hslice]

end Cells

section Part

variable (hg : g.WellFormed) {s : Span} (hs : s.InSentence tokens.length)
include hg hs

theorem isSome_node?_shift_iff {k : Constituent} (hk : k.span.stop ≤ s.width) :
    ((g.forest tokens).node? (k.shift s.start)).isSome ↔
      ((g.forest (s.slice tokens)).node? k).isSome := by
  rw [isSome_node?_iff_derives hg, isSome_node?_iff_derives hg, Constituent.shift,
    inSentence_shift_iff hs hk, length_slice tokens hs.2, slice_shift tokens hk]

theorem shift_mem_applications_iff {k : Constituent} {n n' : Node} (hk : k.span.stop ≤ s.width)
    (hn : (g.forest tokens).node? (k.shift s.start) = some n)
    (hn' : (g.forest (s.slice tokens)).node? k = some n') {a : Application} :
    a.shift s.start ∈ n.applications ↔ a ∈ n'.applications := by
  have hcategories : (a.shift s.start).children.map (·.category) =
      a.children.map (·.category) := by
    rw [Application.shift, List.map_map]
    rfl
  have htile : Tile ((a.shift s.start).children.map (·.span)) (k.shift s.start).span.start
      (k.shift s.start).span.stop ↔ Tile (a.children.map (·.span)) k.span.start k.span.stop := by
    rw [Application.shift, Constituent.map_span_map_shift]
    exact tile_map_shift_iff
  rw [mem_applications_iff hg hn, mem_applications_iff hg hn', hcategories, htile]
  refine and_congr_right fun _ ↦ and_congr_right fun _ ↦ and_congr_right fun _ ↦
    and_congr_right fun ht ↦ ?_
  rw [Application.shift, List.forall_mem_map]
  refine forall₂_congr fun child hchild ↦ isSome_node?_shift_iff hg hs ?_
  exact (ht.bounds (List.mem_map_of_mem hchild)).2.2.trans hk

theorem applications_shift {k : Constituent} {n n' : Node} (hk : k.span.stop ≤ s.width)
    (hn : (g.forest tokens).node? (k.shift s.start) = some n)
    (hn' : (g.forest (s.slice tokens)).node? k = some n') :
    n.applications = n'.applications.map (·.shift s.start) := by
  have hbefore := (grown g tokens).applications_before hg hn
  have hbefore' := (grown g (s.slice tokens)).applications_before hg hn'
  refine Application.eq_of_before hbefore
    (hbefore'.map _ fun a b h ↦ h.shift s.start) fun a ↦ ?_
  rw [List.mem_map]
  constructor
  · intro ha
    obtain ⟨-, -, -, htile, -⟩ := (mem_applications_iff hg hn).1 ha
    obtain ⟨children, hchildren⟩ : ∃ children : List Constituent,
        children.map (·.shift s.start) = a.children := by
      refine Constituent.exists_map_shift fun child hchild ↦ ?_
      obtain ⟨hstart, hlt, -⟩ := htile.bounds (List.mem_map_of_mem hchild)
      exact ⟨(Nat.le_add_left _ _).trans hstart, hlt⟩
    have ha' : Application.shift s.start ⟨a.rule, children⟩ = a :=
      congrArg (Application.mk a.rule) hchildren
    exact ⟨_, (shift_mem_applications_iff hg hs hk hn hn').1 (ha' ▸ ha), ha'⟩
  · intro ha
    obtain ⟨a, ha, rfl⟩ := ha
    exact (shift_mem_applications_iff hg hs hk hn hn').2 ha

theorem nodes_cell_shift {t : Span} (ht : t.InSentence s.width) :
    ((g.forest tokens).chart.cell (t.shift s.start)).nodes =
      ((g.forest (s.slice tokens)).chart.cell t).nodes.map (·.shift s.start) := by
  have hin : (t.shift s.start).InSentence tokens.length := (inSentence_shift_iff hs ht.2).2 ht
  have hin' : t.InSentence (s.slice tokens).length := (length_slice tokens hs.2).symm ▸ ht
  -- The order of categories is settled by discovery, each node by its own sorted applications.
  apply Node.ext_of_category
  · rw [map_category_cell hg hin hin' (slice_shift tokens ht.2), List.map_map]
    rfl
  · intro n hn n' hn' hcategory
    obtain ⟨m, hm, rfl⟩ := List.mem_map.1 hn'
    have hget : (g.forest tokens).node? (Constituent.shift s.start ⟨m.category, t⟩) = some n :=
      (Node.get?_eq_some_iff ((grown g tokens).cell_nodup hg _)).2 ⟨hn, hcategory⟩
    have hget' : (g.forest (s.slice tokens)).node? ⟨m.category, t⟩ = some m :=
      (Node.get?_eq_some_iff ((grown g (s.slice tokens)).cell_nodup hg t)).2 ⟨hm, rfl⟩
    obtain ⟨category, applications⟩ := n
    obtain rfl : category = m.category := hcategory
    exact congrArg (Node.mk m.category) (applications_shift hg hs ht.2 hget hget')

end Part

end Forest

/-- The nodes inside a part of a sentence are, in the same order and with the same applications in
the same order, the nodes of the part by itself, each moved to where the part starts. -/
theorem nodes_inside (g : Grammar) (hg : g.Built) (start : String) (hs : g.isNonterminal start)
    (tokens : List String) (s : Span) (hin : s.InSentence tokens.length) :
    ∃ f f', enumerate g start tokens .unlimited = .ok f ∧
      enumerate g start (s.slice tokens) .unlimited = .ok f' ∧
      f.nodes.filter (fun (k, _) ↦ k.span.Inside s) =
        f'.nodes.map fun (k, n) ↦ (k.shift s.start, n.shift s.start) := by
  have hwf := hg.wellFormed
  refine ⟨g.forest tokens, g.forest (s.slice tokens), enumerate_unlimited hs,
    enumerate_unlimited hs, ?_⟩
  have hoff : ∀ t ∈ ofSentence tokens.length, ¬ decide (t.Inside s) →
      (((g.forest tokens).chart.cell t).nodes.map fun n ↦ (Constituent.mk n.category t, n)).filter
        (fun (k, _) ↦ k.span.Inside s) = [] := by
    intro t _ ht
    refine List.filter_eq_nil_iff.2 fun p hp ↦ ?_
    obtain ⟨n, -, rfl⟩ := List.mem_map.1 hp
    exact ht
  rw [Forest.nodes, Forest.nodes, List.filter_flatMap, List.map_flatMap]
  change (ofSentence tokens.length).flatMap _ = (ofSentence (s.slice tokens).length).flatMap _
  rw [← flatMap_filter_of_eq_nil hoff, filter_ofSentence hin, List.flatMap_map,
    length_slice tokens hin.2]
  refine List.flatMap_congr fun t ht ↦ ?_
  have ht := mem_ofSentence.1 ht
  have hinside : (t.shift s.start).Inside s := by
    have hmem := List.mem_map_of_mem (f := shift s.start) (mem_ofSentence.2 ht)
    rw [← filter_ofSentence hin] at hmem
    exact of_decide_eq_true (List.mem_filter.1 hmem).2
  rw [Forest.nodes_cell_shift hwf hin ht, List.map_map, List.map_map]
  refine (List.filter_eq_self.2 fun p hp ↦ ?_).trans rfl
  obtain ⟨n, -, rfl⟩ := List.mem_map.1 hp
  exact decide_eq_true hinside

theorem nodes_inside_looping :
    looping.Built ∧ looping.isNonterminal "S" ∧ (⟨1, 3⟩ : Span).InSentence 3 ∧
      ∃ f f', enumerate looping "S" ["x", "x", "x"] .unlimited = .ok f ∧
        enumerate looping "S" ["x", "x"] .unlimited = .ok f' ∧
        f.nodes.filter (fun (k, _) ↦ k.span.Inside ⟨1, 3⟩) =
          f'.nodes.map fun (k, n) ↦ (k.shift 1, n.shift 1) :=
  ⟨looping_built, by decide, by decide,
    nodes_inside looping looping_built "S" (by decide) ["x", "x", "x"] ⟨1, 3⟩ (by decide)⟩

end Readings
