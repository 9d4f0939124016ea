import Mathlib.Data.List.Perm.Subperm
import Mathlib.Logic.Relation
import Readings.Forest.Cycle
import Readings.Proofs.Forest.Exact

/-!
The cyclic constituents of a forest are those that can come to stand below themselves.
-/

namespace Readings

open Relation

theorem mem_among {names xs : List String} {x : String} :
    x ∈ among names xs ↔ x ∈ xs ∧ x ∈ names := by
  simp [among]

theorem mem_outside {names xs : List String} {x : String} :
    x ∈ outside names xs ↔ x ∈ xs ∧ x ∉ names := by
  simp [outside]

/-- The names that a search takes up if it does not find its target: those on the stack and all that
`next` leads to among the unseen ones. -/
def explore (next : String → List String) (stack unseen : List String) : List String :=
  match stack with
  | [] => []
  | x :: stack =>
    let successors := next x
    x :: explore next (among successors unseen ++ stack) (outside successors unseen)
termination_by stack.length + unseen.length
decreasing_by
  have := length_among_add_length_outside (next x) unseen
  simp only [List.length_append, List.length_cons]
  omega

section Explore

variable {next : String → List String} {stack unseen : List String}

/-- A search finds its target if it would take up a name that leads there. -/
theorem reaches_iff {target : String} :
    reaches next target stack unseen ↔ ∃ x ∈ explore next stack unseen, target ∈ next x := by
  fun_induction reaches next target stack unseen with
  | case1 => simp [explore]
  | case2 unseen x stack successors hfound =>
    refine iff_of_true rfl ⟨x, ?_, List.contains_iff_mem.1 hfound⟩
    rw [explore]
    exact List.mem_cons_self
  | case3 unseen x stack successors hfound ih =>
    have hx : ¬ target ∈ next x := fun hx ↦ hfound (List.contains_iff_mem.2 hx)
    rw [ih, explore, List.exists_mem_cons_iff, or_iff_right hx]

theorem exists_reflTransGen_of_mem_explore {y : String} (hy : y ∈ explore next stack unseen) :
    ∃ x ∈ stack, ReflTransGen (fun x y ↦ y ∈ next x) x y := by
  fun_induction explore next stack unseen with
  | case1 => cases hy
  | case2 unseen x stack successors ih =>
    rcases List.mem_cons.1 hy with rfl | hy
    · exact ⟨y, List.mem_cons_self, .refl⟩
    · obtain ⟨z, hz, hzy⟩ := ih hy
      rcases List.mem_append.1 hz with hz | hz
      · exact ⟨x, List.mem_cons_self, hzy.head (mem_among.1 hz).2⟩
      · exact ⟨z, List.mem_cons_of_mem x hz, hzy⟩

theorem mem_explore_of_mem_stack {x : String} (hx : x ∈ stack) : x ∈ explore next stack unseen := by
  fun_induction explore next stack unseen with
  | case1 => cases hx
  | case2 unseen y stack successors ih =>
    rcases List.mem_cons.1 hx with rfl | hx
    · exact List.mem_cons_self
    · exact List.mem_cons_of_mem y (ih (List.mem_append_right _ hx))

/-- The walk leaves nothing out that was unseen when it set off. -/
theorem mem_explore_of_next {x y : String} (hx : x ∈ explore next stack unseen)
    (hxy : y ∈ next x) (hy : y ∈ unseen) : y ∈ explore next stack unseen := by
  fun_induction explore next stack unseen with
  | case1 => cases hx
  | case2 unseen z stack successors ih =>
    by_cases hz : y ∈ successors
    · have hmem : y ∈ among successors unseen ++ stack :=
        List.mem_append_left stack (mem_among.2 ⟨hy, hz⟩)
      exact List.mem_cons_of_mem z (mem_explore_of_mem_stack hmem)
    · rcases List.mem_cons.1 hx with rfl | hx
      · exact absurd hxy hz
      · exact List.mem_cons_of_mem z (ih hx (mem_outside.2 ⟨hy, hz⟩))

theorem among_append_outside_perm (names xs : List String) :
    (among names xs ++ outside names xs).Perm xs :=
  List.filter_append_perm _ xs

/-- The walk takes each name from the stack or from the unseen ones, and none of them twice. -/
theorem explore_subperm (next : String → List String) (stack unseen : List String) :
    (explore next stack unseen).Subperm (stack ++ unseen) := by
  fun_induction explore next stack unseen with
  | case1 => exact List.nil_subperm
  | case2 unseen x stack successors ih =>
    have hperm : ((among successors unseen ++ stack) ++ outside successors unseen).Perm
        (stack ++ unseen) := by
      refine (List.perm_append_comm.append_right _).trans ?_
      rw [List.append_assoc]
      exact (among_append_outside_perm successors unseen).append_left stack
    exact (List.subperm_cons x).2 (ih.trans hperm.subperm)

end Explore

namespace Cell

theorem mem_unaryChildren {c : Cell} {x y : String} :
    y ∈ c.unaryChildren x ↔ ∃ n, Node.get? c.nodes x = some n ∧
      ∃ a ∈ n.applications, ∃ child, a.children = [child] ∧ child.category = y := by
  rw [unaryChildren]
  cases Node.get? c.nodes x with
  | none => simp
  | some n =>
    simp only [List.mem_filterMap, Option.some.injEq, exists_eq_left']
    refine exists_congr fun a ↦ and_congr_right fun _ ↦ ?_
    split
    · rename_i child hchildren
      simp [hchildren]
    · rename_i hchildren
      simp only [reduceCtorEq, false_iff]
      exact fun ⟨child, hchild, _⟩ ↦ hchildren child hchild

/-- The categories that a search from a category takes up unless it finds its target before. -/
def searched (c : Cell) (category : String) : List String :=
  explore c.unaryChildren [category] (c.nodes.map (·.category))

theorem unaryReaches_iff_searched {c : Cell} {x y : String} :
    c.unaryReaches x y ↔ ∃ z ∈ c.searched x, y ∈ c.unaryChildren z :=
  reaches_iff

theorem searched_tail_subperm (c : Cell) (x : String) :
    (c.searched x).tail.Subperm (c.nodes.map (·.category)) := by
  rw [searched, explore]
  refine (explore_subperm _ _ _).trans ?_
  rw [List.append_nil]
  exact (among_append_outside_perm _ _).subperm

/-- In a cell that unary applications do not leave, a search finds all that they lead to. -/
theorem unaryReaches_iff {c : Cell}
    (hc : ∀ x, ∀ y ∈ c.unaryChildren x, y ∈ c.nodes.map (·.category)) {x y : String} :
    c.unaryReaches x y ↔ TransGen (fun x y ↦ y ∈ c.unaryChildren x) x y := by
  rw [unaryReaches_iff_searched, TransGen.tail'_iff]
  refine exists_congr fun z ↦ and_congr_left' ?_
  constructor
  · intro h
    obtain ⟨w, hw, hreach⟩ := exists_reflTransGen_of_mem_explore h
    exact List.mem_singleton.1 hw ▸ hreach
  · intro h
    induction h with
    | refl => exact mem_explore_of_mem_stack (List.mem_singleton_self x)
    | tail _ hz ih => exact mem_explore_of_next ih hz (hc _ _ hz)

end Cell

namespace Forest

/-- Some application of the first constituent has the second one among its children. -/
def Parent (f : Forest) (k child : Constituent) : Prop :=
  ∃ n, f.node? k = some n ∧ ∃ a ∈ n.applications, child ∈ a.children

theorem isSome_node?_of_parent {f : Forest} {k child : Constituent} (h : f.Parent k child) :
    (f.node? k).isSome := by
  obtain ⟨n, hn, -⟩ := h
  rw [hn]
  rfl

theorem mem_cyclic_iff {f : Forest} {k : Constituent} :
    k ∈ f.cyclic ↔ k.span.InSentence f.tokens.length ∧
      k.category ∈ (f.chart.cell k.span).cyclic := by
  rw [← Std.HashSet.contains_iff_mem, cyclic, Std.HashSet.contains_ofList]
  simp only [List.contains_iff_mem, List.mem_flatMap, List.mem_map, Span.mem_ofSentence]
  constructor
  · intro h
    obtain ⟨s, hs, category, hcategory, hk⟩ := h
    subst hk
    exact ⟨hs, hcategory⟩
  · intro h
    obtain ⟨hs, hcategory⟩ := h
    exact ⟨k.span, hs, k.category, hcategory, rfl⟩

variable {g : Grammar} {tokens : List String}

theorem isSome_node?_child (hg : g.WellFormed) {k child : Constituent}
    (h : (g.forest tokens).Parent k child) : ((g.forest tokens).node? child).isSome := by
  obtain ⟨n, hn, a, ha, hchild⟩ := h
  obtain ⟨-, -, -, -, hnodes⟩ := (mem_applications_iff hg hn).1 ha
  exact hnodes child hchild

/-- A child covers less than its parent, unless the two are a link of a unary chain. -/
theorem parent_cases (hg : g.WellFormed) {k child : Constituent}
    (h : (g.forest tokens).Parent k child) :
    child.span.width < k.span.width ∨ child.span = k.span ∧
      child.category ∈ ((g.forest tokens).chart.cell k.span).unaryChildren k.category := by
  obtain ⟨n, hn, a, ha, hchild⟩ := h
  obtain ⟨-, -, -, htile, -⟩ := (mem_applications_iff hg hn).1 ha
  by_cases hlen : 2 ≤ a.children.length
  · exact .inl (htile.width_lt (by simpa using hlen) (List.mem_map_of_mem hchild))
  · have hone : a.children.length = 1 := by
      have hpos := List.length_pos_of_mem hchild
      omega
    obtain ⟨only, hchildren⟩ := List.length_eq_one_iff.1 hone
    rw [hchildren, List.mem_singleton] at hchild
    subst hchild
    rw [hchildren, List.map_singleton, Span.tile_singleton_iff] at htile
    exact .inr ⟨htile.1, Cell.mem_unaryChildren.2 ⟨n, hn, a, ha, child, hchildren, rfl⟩⟩

theorem parent_of_mem_unaryChildren (hg : g.WellFormed) {s : Span} {x y : String}
    (h : y ∈ ((g.forest tokens).chart.cell s).unaryChildren x) :
    (g.forest tokens).Parent ⟨x, s⟩ ⟨y, s⟩ := by
  obtain ⟨n, hn, a, ha, child, hchildren, hy⟩ := Cell.mem_unaryChildren.1 h
  have hnode : (g.forest tokens).node? ⟨x, s⟩ = some n := hn
  obtain ⟨-, -, -, htile, -⟩ := (mem_applications_iff hg hnode).1 ha
  rw [hchildren, List.map_singleton, Span.tile_singleton_iff] at htile
  refine ⟨n, hnode, a, ha, ?_⟩
  rw [hchildren, List.mem_singleton, ← hy]
  exact congrArg (Constituent.mk child.category) htile.1.symm

theorem transGen_parent_cases (hg : g.WellFormed) {k l : Constituent}
    (h : TransGen (g.forest tokens).Parent k l) :
    l.span.width < k.span.width ∨ l.span = k.span ∧
      TransGen (fun x y ↦ y ∈ ((g.forest tokens).chart.cell k.span).unaryChildren x)
        k.category l.category := by
  induction h with
  | single h => exact (parent_cases hg h).imp_right fun h ↦ ⟨h.1, .single h.2⟩
  | tail _ h ih =>
    rcases parent_cases hg h with hlt | ⟨hspan, hmem⟩
    · rcases ih with hlt' | ⟨hspan', -⟩
      · exact .inl (Nat.lt_trans hlt hlt')
      · exact .inl (hspan' ▸ hlt)
    · rcases ih with hlt' | ⟨hspan', htrans⟩
      · exact .inl (hspan ▸ hlt')
      · rw [hspan'] at hspan hmem
        exact .inr ⟨hspan, htrans.tail hmem⟩

theorem mem_map_category_iff {f : Forest} {s : Span} {x : String} :
    x ∈ (f.chart.cell s).nodes.map (·.category) ↔ (f.node? ⟨x, s⟩).isSome := by
  rw [isSome_node?, Chart.has, Node.has_iff, List.mem_map]

/-- Unary applications do not lead out of their cell. -/
theorem mem_map_category_of_mem_unaryChildren (hg : g.WellFormed) {s : Span} {x y : String}
    (h : y ∈ ((g.forest tokens).chart.cell s).unaryChildren x) :
    y ∈ ((g.forest tokens).chart.cell s).nodes.map (·.category) :=
  mem_map_category_iff.2 (isSome_node?_child hg (parent_of_mem_unaryChildren hg h))

/-- Unary cycles are the only cycles of a forest. -/
theorem mem_cyclic_iff_transGen (hg : g.WellFormed) {k : Constituent} :
    k ∈ (g.forest tokens).cyclic ↔ TransGen (g.forest tokens).Parent k k := by
  rw [mem_cyclic_iff, Cell.cyclic, List.mem_filter,
    Cell.unaryReaches_iff fun _ _ ↦ mem_map_category_of_mem_unaryChildren hg]
  constructor
  · intro h
    obtain ⟨_, _, h⟩ := h
    exact h.lift (Constituent.mk · k.span) fun x y ↦ parent_of_mem_unaryChildren hg
  · intro h
    rcases transGen_parent_cases hg h with hlt | ⟨-, htrans⟩
    · exact absurd hlt (Nat.lt_irrefl _)
    · obtain ⟨l, -, hl⟩ := TransGen.tail'_iff.1 h
      have hsome := isSome_node?_child hg hl
      exact ⟨(grown g tokens).inSentence (isSome_node? .. ▸ hsome), mem_map_category_iff.2 hsome,
        htrans⟩

end Forest

end Readings
