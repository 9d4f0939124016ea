import Readings.Proofs.Chart.Cell
import Readings.Proofs.Chart.Order

/-!
The nodes of a grown chart: a category has a node if it is read off a token or heads a rule that
matches, and the node keeps every match once.
-/

namespace Readings.Chart

open Node Unary

variable {g : Grammar} {tokens : List String} {width : Nat} {c : Chart}

theorem isSome_node? (c : Chart) (k : Constituent) : (c.node? k).isSome = c.has k :=
  Node.isSome_get? _ _

theorem has_of_node?_eq_some {k : Constituent} {n : Node} (h : c.node? k = some n) : c.has k := by
  rw [← isSome_node?, h]
  rfl

namespace Grown

theorem mem_applicationsOf_iff (hg : g.WellFormed) (hc : Grown g tokens width c) {s : Span}
    (hs : s.InSentence tokens.length ∧ s.width ≤ width) {category : String} {a : Application} :
    a ∈ applicationsOf (c.closedNodes g tokens s).1 category ↔
      a.rule ∈ g.rules ∧ a.rule.lhs = category ∧
        c.Matches a.rule.rhs s.start s.stop a.children := by
  rw [mem_applicationsOf_closedNodes]
  refine and_congr_right fun hr ↦ and_congr_right fun _ ↦ ?_
  have hhas (child : String) :
      c.has ⟨child, s⟩ ↔ Node.has (c.closedNodes g tokens s).1 child := by
    rw [hc.has_iff]
    exact and_iff_right hs
  constructor
  · intro h
    rcases h with ⟨harity, hrow⟩ | ⟨⟨child, hrhs, hchild⟩, ha⟩
    · exact (hc.mem_wholeMatches_iff hg hr harity (by omega)).1 hrow
    · rw [hrhs, matches_singleton_iff]
      refine ⟨?_, hs.1.1, (hhas child).2 hchild⟩
      rw [ha, application, hrhs]
      rfl
  · intro h
    by_cases harity : 2 ≤ a.rule.arity
    · exact .inl ⟨harity, (hc.mem_wholeMatches_iff hg hr harity (by omega)).2 h⟩
    · have hone : a.rule.rhs.length = 1 := by
        have hpos := hg.arity_pos hr
        rw [Rule.arity] at hpos harity
        omega
      obtain ⟨child, hrhs⟩ := List.length_eq_one_iff.1 hone
      rw [hrhs, matches_singleton_iff] at h
      refine .inr ⟨⟨child, hrhs, (hhas child).1 h.2.2⟩, ?_⟩
      obtain ⟨rule, children⟩ := a
      simp only at h hrhs
      rw [application, h.1, hrhs]
      rfl

theorem has_iff_terminal_or_match (hg : g.WellFormed) (hc : Grown g tokens width c)
    {k : Constituent} :
    c.has k ↔ (k.span.InSentence tokens.length ∧ k.span.width ≤ width) ∧
      (IsTerminalAt g tokens k.span k.category ∨ ∃ rule ∈ g.rules, rule.lhs = k.category ∧
        ∃ children, c.Matches rule.rhs k.span.start k.span.stop children) := by
  rw [hc.has_iff]
  refine and_congr_right fun hs ↦ ?_
  rw [has_closedNodes_iff]
  apply or_congr_right
  constructor
  · intro h
    obtain ⟨a, ha⟩ := List.exists_mem_of_ne_nil _ h
    obtain ⟨hr, hl, hmatch⟩ := (hc.mem_applicationsOf_iff hg hs).1 ha
    exact ⟨a.rule, hr, hl, a.children, hmatch⟩
  · intro h
    obtain ⟨rule, hr, hl, children, hmatch⟩ := h
    have ha := (hc.mem_applicationsOf_iff hg hs (a := ⟨rule, children⟩)).2 ⟨hr, hl, hmatch⟩
    exact List.ne_nil_of_mem ha

theorem applicationsOf_nodup (hg : g.WellFormed) (hc : Grown g tokens width c) (s : Span)
    (category : String) : (applicationsOf (c.closedNodes g tokens s).1 category).Nodup := by
  obtain ⟨fired, hrec, -⟩ := closedNodes_spec g tokens c s
  rw [hrec.applicationsOf_eq, List.nodup_append]
  refine ⟨?_, ?_, ?_⟩
  · rw [applicationsOf_matchedNodes, List.nodup_flatMap]
    refine ⟨fun rule hr ↦ ?_, hg.rules_nodup.imp fun {rule rule'} hne a ha ha' ↦ ?_⟩
    · rw [longApplications]
      split
      · refine (wholeMatches_nodup hg hc hr s).map fun row row' he ↦ ?_
        rw [Application.mk.injEq] at he
        exact he.2
      · exact List.nodup_nil
    · exact hne ((mem_longApplications.1 ha).1.symm.trans (mem_longApplications.1 ha').1)
  · exact (hrec.fired_nodup.filter _).map fun _ _ ↦ application_inj.1
  · intro a ha b hb he
    obtain ⟨rule, hr, rfl⟩ := List.mem_map.1 hb
    rw [he] at ha
    exact not_isUnary_of_mem_matchedNodes ha (hrec.fires_of_mem (List.mem_of_mem_filter hr)).isUnary

theorem node?_eq_some (hc : Grown g tokens width c) {k : Constituent} {n : Node}
    (h : c.node? k = some n) :
    (k.span.InSentence tokens.length ∧ k.span.width ≤ width) ∧ n.category = k.category ∧
      n.applications.Perm (applicationsOf (c.closedNodes g tokens k.span).1 k.category) ∧
      n.applications.Pairwise (fun a b ↦ a.le b) := by
  have hin := (hc.has_iff.1 (has_of_node?_eq_some h)).1
  rw [Chart.node?, hc k.span, if_pos hin, nodes_cellOver, get?_map_sort,
    Option.map_eq_some_iff] at h
  obtain ⟨n, hn, rfl⟩ := h
  obtain ⟨-, hcategory, happs⟩ := get?_eq_some hn
  rw [← happs]
  exact ⟨hin, hcategory, List.mergeSort_perm _ _,
    List.pairwise_mergeSort Application.le_trans Application.le_total _⟩

theorem cell_nodup (hg : g.WellFormed) (hc : Grown g tokens width c) (s : Span) :
    ((c.cell s).nodes.map (·.category)).Nodup := by
  rw [hc s]
  split
  · rw [nodes_cellOver, List.map_map]
    exact closedNodes_nodup hg c s
  · exact List.nodup_nil

theorem mem_applications_iff (hg : g.WellFormed) (hc : Grown g tokens width c) {k : Constituent}
    {n : Node} (h : c.node? k = some n) {a : Application} :
    a ∈ n.applications ↔ a.rule ∈ g.rules ∧ a.rule.lhs = k.category ∧
      c.Matches a.rule.rhs k.span.start k.span.stop a.children := by
  obtain ⟨hin, -, hperm, -⟩ := hc.node?_eq_some h
  rw [hperm.mem_iff, hc.mem_applicationsOf_iff hg hin]

theorem applications_nodup (hg : g.WellFormed) (hc : Grown g tokens width c) {k : Constituent}
    {n : Node} (h : c.node? k = some n) : n.applications.Nodup := by
  obtain ⟨-, -, hperm, -⟩ := hc.node?_eq_some h
  exact hperm.nodup_iff.2 (hc.applicationsOf_nodup hg k.span k.category)

/-- No two applications of a node agree in their rule and in the spans of their children. -/
theorem applications_before (hg : g.WellFormed) (hc : Grown g tokens width c) {k : Constituent}
    {n : Node} (h : c.node? k = some n) : n.applications.Pairwise Application.Before := by
  obtain ⟨-, -, -, hsorted⟩ := hc.node?_eq_some h
  refine List.Pairwise.imp_of_mem ?_ (hsorted.and (hc.applications_nodup hg h))
  intro a b ha hb ⟨hle, hne⟩
  obtain ⟨hr, -, hmatch, -⟩ := (hc.mem_applications_iff hg h).1 ha
  obtain ⟨hr', -, hmatch', -⟩ := (hc.mem_applications_iff hg h).1 hb
  refine Application.before_of_le hle fun ⟨hid, hspans⟩ ↦ hne ?_
  have hrule := hg.rule_ext hr hr' hid
  have hchildren := Constituent.list_ext (by rw [hmatch, hmatch', hrule]) hspans
  cases a
  cases b
  simp_all

/-- Whatever holds of the terminals of tokens, and of the head of a rule over a span if of the
constituents that match it there, holds of everything in the chart. -/
theorem has_induction (hg : g.WellFormed) (hc : Grown g tokens width c)
    {P : Constituent → Prop}
    (terminal : ∀ k : Constituent, k.span.InSentence tokens.length →
      IsTerminalAt g tokens k.span k.category → P k)
    (rule : ∀ (k : Constituent) (r : Rule) (children : List Constituent), r ∈ g.rules →
      r.lhs = k.category → c.Matches r.rhs k.span.start k.span.stop children →
      (∀ child ∈ children, P child) → P k)
    {k : Constituent} (hk : c.has k) : P k := by
  induction hn : k.span.width using Nat.strongRecOn generalizing k with
  | ind n ih =>
    obtain ⟨category, s⟩ := k
    simp only at hn
    obtain ⟨hin, hk⟩ := hc.has_iff.1 hk
    obtain ⟨fired, hrec, -, hfired⟩ := closedNodes_spec g tokens c s
    have hhas {x : String} (hx : Node.has (c.closedNodes g tokens s).1 x) : c.has ⟨x, s⟩ :=
      hc.has_iff.2 ⟨hin, hx⟩
    -- Within the cell, the order of recording carries the induction: a unary rule is recorded
    -- after its right-hand side.
    have hcell : ∀ x, Node.has (c.closedNodes g tokens s).1 x → c.has ⟨x, s⟩ ∧ P ⟨x, s⟩ := by
      refine hrec.has_induction (fun x hx ↦ ?_) fun r hr child hrhs hchild ↦ ?_
      · refine ⟨hhas ((hrec.has_iff x).2 (.inl hx)), ?_⟩
        rcases (has_matchedNodes_iff x).1 hx with hx | hx
        · exact terminal _ hin.1 hx
        · obtain ⟨a, ha⟩ := List.exists_mem_of_ne_nil _ hx
          obtain ⟨r, hr, ha⟩ := List.mem_flatMap.1 ha
          obtain ⟨rfl, hl, harity, hrow⟩ := mem_longApplications.1 ha
          have hmatch := (hc.mem_wholeMatches_iff hg hr harity (Nat.le_succ_of_le hin.2)).1 hrow
          refine rule _ _ _ hr hl hmatch fun k hk ↦ ih _ ?_ (hmatch.2.2 k hk) rfl
          have hlen : 2 ≤ (a.children.map (·.span)).length := by
            have hlen := congrArg List.length hmatch.1
            rw [List.length_map] at hlen ⊢
            exact hlen ▸ harity
          exact hn ▸ hmatch.2.1.width_lt hlen (List.mem_map_of_mem hk)
      · have hmem : r ∈ g.rules := ((hfired r).1 hr).1
        refine ⟨hhas ((hrec.has_iff r.lhs).2 (.inr ⟨r, hr, rfl⟩)), ?_⟩
        refine rule _ r [⟨child, s⟩] hmem rfl ?_ fun k hk ↦ List.mem_singleton.1 hk ▸ hchild.2
        rw [hrhs]
        exact matches_singleton_iff.2 ⟨rfl, hin.1.1, hchild.1⟩
    exact (hcell category hk).2

end Grown

end Readings.Chart
