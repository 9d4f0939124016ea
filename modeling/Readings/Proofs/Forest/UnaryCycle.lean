import Readings.Proofs.Forest.Cycle

/-!
Unary cycles come from the rules alone. Over any span, a category that is present brings along
every category that unary rules rewrite to it; so a cycle of unary rules is found over a span as a
whole or not at all, and where it is found all of its members are cyclic.
-/

namespace Readings

open Relation Grammar

/-- A unary rule of the grammar rewrites the first category as the second. -/
def Grammar.Rewrites (g : Grammar) (x y : String) : Prop :=
  ∃ rule ∈ g.rules, rule.lhs = x ∧ rule.rhs = [y]

namespace Forest

/-- Which constituents of the forest are cyclic is decided by the unary rules of the grammar. -/
structure CyclesOf (g : Grammar) (f : Forest) : Prop where
  isNode : ∀ k ∈ f.cyclic, (f.node? k).isSome
  cyclic_iff : ∀ k, (f.node? k).isSome →
    (k ∈ f.cyclic ↔ TransGen g.Rewrites k.category k.category)
  /-- The members of a unary cycle are found together. -/
  together : ∀ s x y, TransGen g.Rewrites x y → TransGen g.Rewrites y x →
    (f.node? ⟨x, s⟩).isSome → (f.node? ⟨y, s⟩).isSome
  /-- A search ends: after the category that it sets off from it takes up each category of the cell
  at most once. -/
  search_nodup : ∀ s x, ((f.chart.cell s).searched x).tail.Nodup
  length_search_le : ∀ s x,
    ((f.chart.cell s).searched x).length ≤ (f.chart.cell s).nodes.length + 1
  reaches_iff : ∀ s x y, (f.chart.cell s).unaryReaches x y ↔
    (f.node? ⟨y, s⟩).isSome ∧ TransGen g.Rewrites x y

variable {g : Grammar} {tokens : List String} {s : Span} {x y : String}

theorem isSome_node?_of_rewrites (hg : g.WellFormed) (h : g.Rewrites x y)
    (hy : ((g.forest tokens).node? ⟨y, s⟩).isSome) :
    ((g.forest tokens).node? ⟨x, s⟩).isSome := by
  obtain ⟨rule, hr, hl, hrhs⟩ := h
  rw [isSome_node?] at hy ⊢
  have hin := ((grown g tokens).has_iff.1 hy).1
  refine ((grown g tokens).has_iff_terminal_or_match hg).2 ⟨hin, .inr ⟨rule, hr, hl, [⟨y, s⟩], ?_⟩⟩
  rw [hrhs]
  exact Chart.matches_singleton_iff.2 ⟨rfl, hin.1.1, hy⟩

/-- A unary rule is applied wherever its right-hand side is present. -/
theorem mem_unaryChildren_iff (hg : g.WellFormed) :
    y ∈ ((g.forest tokens).chart.cell s).unaryChildren x ↔
      ((g.forest tokens).node? ⟨y, s⟩).isSome ∧ g.Rewrites x y := by
  constructor
  · intro h
    have hy := isSome_node?_child hg (parent_of_mem_unaryChildren hg h)
    obtain ⟨n, hn, a, ha, child, hchildren, rfl⟩ := Cell.mem_unaryChildren.1 h
    have hnode : (g.forest tokens).node? ⟨x, s⟩ = some n := hn
    obtain ⟨hr, hl, hspell, -⟩ := (mem_applications_iff hg hnode).1 ha
    rw [hchildren] at hspell
    exact ⟨hy, a.rule, hr, hl, hspell.symm⟩
  · intro h
    obtain ⟨hy, hrewrites⟩ := h
    obtain ⟨n, hn⟩ := Option.isSome_iff_exists.1 (isSome_node?_of_rewrites hg hrewrites hy)
    obtain ⟨rule, hr, hl, hrhs⟩ := hrewrites
    rw [isSome_node?] at hy
    have hin := ((grown g tokens).has_iff.1 hy).1.1
    have ha : Application.mk rule [⟨y, s⟩] ∈ n.applications := by
      rw [(grown g tokens).mem_applications_iff hg hn, hrhs]
      exact ⟨hr, hl, Chart.matches_singleton_iff.2 ⟨rfl, hin.1, hy⟩⟩
    exact Cell.mem_unaryChildren.2 ⟨n, hn, _, ha, ⟨y, s⟩, rfl, rfl⟩

/-- A chain of unary rules is applied as a whole wherever its end is present. -/
theorem transGen_unaryChildren_iff (hg : g.WellFormed) :
    TransGen (fun x y ↦ y ∈ ((g.forest tokens).chart.cell s).unaryChildren x) x y ↔
      ((g.forest tokens).node? ⟨y, s⟩).isSome ∧ TransGen g.Rewrites x y := by
  constructor
  · intro h
    obtain ⟨z, -, hz⟩ := TransGen.tail'_iff.1 h
    exact ⟨((mem_unaryChildren_iff hg).1 hz).1,
      TransGen.mono (fun _ _ hstep ↦ ((mem_unaryChildren_iff hg).1 hstep).2) _ _ h⟩
  · intro h
    obtain ⟨hy, hchain⟩ := h
    -- from the end of the chain, as presence is handed on against the rules
    induction hchain using TransGen.head_induction_on with
    | single h => exact .single ((mem_unaryChildren_iff hg).2 ⟨hy, h⟩)
    | head h _ ih =>
      obtain ⟨z, hz, -⟩ := TransGen.head'_iff.1 ih
      have hnode := isSome_node?_of_rewrites hg ((mem_unaryChildren_iff hg).1 hz).2
        ((mem_unaryChildren_iff hg).1 hz).1
      exact ih.head ((mem_unaryChildren_iff hg).2 ⟨hnode, h⟩)

theorem isSome_node?_of_transGen_rewrites (hg : g.WellFormed) (h : TransGen g.Rewrites x y)
    (hy : ((g.forest tokens).node? ⟨y, s⟩).isSome) :
    ((g.forest tokens).node? ⟨x, s⟩).isSome := by
  obtain ⟨z, hz, -⟩ := TransGen.head'_iff.1 ((transGen_unaryChildren_iff hg).2 ⟨hy, h⟩)
  exact isSome_node?_of_parent (parent_of_mem_unaryChildren hg hz)

theorem unaryReaches_iff (hg : g.WellFormed) :
    ((g.forest tokens).chart.cell s).unaryReaches x y ↔
      ((g.forest tokens).node? ⟨y, s⟩).isSome ∧ TransGen g.Rewrites x y := by
  rw [Cell.unaryReaches_iff fun _ _ ↦ mem_map_category_of_mem_unaryChildren hg,
    transGen_unaryChildren_iff hg]

theorem mem_cyclic_iff_rewrites (hg : g.WellFormed) {k : Constituent} :
    k ∈ (g.forest tokens).cyclic ↔
      ((g.forest tokens).node? k).isSome ∧ TransGen g.Rewrites k.category k.category := by
  rw [mem_cyclic_iff, Cell.cyclic, List.mem_filter, mem_map_category_iff, unaryReaches_iff hg,
    and_self_left]
  refine and_iff_right_of_imp fun h ↦ (grown g tokens).inSentence ?_
  exact isSome_node? .. ▸ h.1

theorem cyclesOf_forest (hg : g.WellFormed) : (g.forest tokens).CyclesOf g where
  isNode _ hk := ((mem_cyclic_iff_rewrites hg).1 hk).1
  cyclic_iff _ hk := (mem_cyclic_iff_rewrites hg).trans (and_iff_right hk)
  together _ _ _ _ h hx := isSome_node?_of_transGen_rewrites hg h hx
  search_nodup s x := by
    obtain ⟨_, hperm, hsub⟩ := Cell.searched_tail_subperm ((g.forest tokens).chart.cell s) x
    exact hperm.nodup_iff.1 (((grown g tokens).cell_nodup hg s).sublist hsub)
  length_search_le s x := by
    have hle := (Cell.searched_tail_subperm ((g.forest tokens).chart.cell s) x).length_le
    rw [List.length_tail, List.length_map] at hle
    exact Nat.le_add_of_sub_le hle
  reaches_iff _ _ _ := unaryReaches_iff hg

end Forest

/-- In every forest the cyclic constituents are those whose category lies on a cycle of unary
rules. So a category is cyclic over all spans of all sentences over which it is found, or over
none. -/
theorem cyclic_exact (g : Grammar) (hg : g.Built) (start : String) (tokens : List String)
    (b : Budget) (f : Forest) (hf : enumerate g start tokens b = .ok f) :
    f.CyclesOf g ∧
      ∀ start' tokens' b' f', enumerate g start' tokens' b' = .ok f' →
        ∀ x s s', (f.node? ⟨x, s⟩).isSome → (f'.node? ⟨x, s'⟩).isSome →
          (⟨x, s⟩ ∈ f.cyclic ↔ ⟨x, s'⟩ ∈ f'.cyclic) := by
  obtain rfl := eq_forest_of_enumerate hf
  have hcycles : (g.forest tokens).CyclesOf g := Forest.cyclesOf_forest hg.wellFormed
  refine ⟨hcycles, fun start' tokens' b' f' hf' x s s' hx hx' ↦ ?_⟩
  obtain rfl := eq_forest_of_enumerate hf'
  rw [hcycles.cyclic_iff _ hx, (Forest.cyclesOf_forest hg.wellFormed).cyclic_iff _ hx']

/-- `S` and `A` rewrite each other, so `S` is cyclic over every span of every row of words. -/
theorem cyclic_exact_looping :
    looping.Built ∧ enumerate looping "S" ["x", "x"] .unlimited = .ok (looping.forest ["x", "x"]) ∧
      TransGen looping.Rewrites "S" "S" ∧
      ((looping.forest ["x", "x"]).node? ⟨"S", ⟨0, 2⟩⟩).isSome ∧
      ⟨"S", ⟨0, 2⟩⟩ ∈ (looping.forest ["x", "x"]).cyclic ∧
      (⟨"S", ⟨0, 2⟩⟩ ∈ (looping.forest ["x", "x"]).cyclic ↔
        ⟨"S", ⟨0, 3⟩⟩ ∈ (looping.forest ["x", "x", "x"]).cyclic) := by
  have hf {tokens : List String} :
      enumerate looping "S" tokens .unlimited = .ok (looping.forest tokens) :=
    enumerate_unlimited (by decide)
  obtain ⟨hcycles, hsame⟩ := cyclic_exact looping looping_built "S" ["x", "x"] .unlimited _ hf
  have hdown : looping.Rewrites "S" "A" := ⟨⟨⟨"S", ["A"]⟩, 1⟩, by decide, rfl, rfl⟩
  have hup : looping.Rewrites "A" "S" := ⟨⟨⟨"A", ["S"]⟩, 2⟩, by decide, rfl, rfl⟩
  have hcycle : TransGen looping.Rewrites "S" "S" := .tail (.single hdown) hup
  have hnode : ((looping.forest ["x", "x"]).node? ⟨"S", ⟨0, 2⟩⟩).isSome :=
    (Forest.isSome_node?_iff_derives looping_built.wellFormed _).2 ⟨by decide, looping_derives 1⟩
  have hnode' : ((looping.forest ["x", "x", "x"]).node? ⟨"S", ⟨0, 3⟩⟩).isSome :=
    (Forest.isSome_node?_iff_derives looping_built.wellFormed _).2 ⟨by decide, looping_derives 2⟩
  exact ⟨looping_built, hf, hcycle, hnode, (hcycles.cyclic_iff _ hnode).2 hcycle,
    hsame "S" ["x", "x", "x"] .unlimited _ hf "S" _ _ hnode hnode'⟩

end Readings
