import Readings.Proofs.Forest.Parsing
import Readings.Proofs.Grammar.Variant

/-!
The forest of a sentence holds exactly what the grammar derives, and each node exactly the ways to
derive it.
-/

namespace Readings

open Readings.Span Grammar

namespace Forest

/-- The nodes are the constituents that the grammar derives, each listed once. A nonterminal node
has one application for each rule and each row of nodes that spells out the rule over its span, in
order; a terminal node stands over a single token and has none. -/
structure Exact (g : Grammar) (tokens : List String) (f : Forest) : Prop where
  node_iff : ∀ k : Constituent, (f.node? k).isSome ↔
    k.span.InSentence tokens.length ∧ g.Derives [k.category] (k.span.slice tokens)
  mem_nodes_iff : ∀ k n, (k, n) ∈ f.nodes ↔ f.node? k = some n
  nodes_nodup : (f.nodes.map (·.1)).Nodup
  application_iff : ∀ k n, f.node? k = some n → g.isNonterminal k.category →
    ∀ a, a ∈ n.applications ↔ a.rule ∈ g.rules ∧ a.rule.lhs = k.category ∧
      a.children.map (·.category) = a.rule.rhs ∧
      Tile (a.children.map (·.span)) k.span.start k.span.stop ∧
      ∀ child ∈ a.children, (f.node? child).isSome
  increasing : ∀ k n, f.node? k = some n → n.applications.Pairwise Application.Before
  terminal : ∀ k n, f.node? k = some n → g.isTerminal k.category →
    k.span.width = 1 ∧ n.applications = []

variable {g : Grammar} {tokens : List String}

theorem isSome_node?_iff_derives (hg : g.WellFormed) (k : Constituent) :
    ((g.forest tokens).node? k).isSome ↔
      k.span.InSentence tokens.length ∧ g.Derives [k.category] (k.span.slice tokens) := by
  rw [isSome_node?, has_iff_exists_parse hg, exists_parse_iff hg]
  exact and_assoc.symm

theorem isSome_node?_of_within {g' : Grammar} (hg : g.WellFormed) (hg' : g'.WellFormed)
    (h : g.Within g') {k : Constituent} (hk : ((g.forest tokens).node? k).isSome) :
    ((g'.forest tokens).node? k).isSome := by
  rw [isSome_node?_iff_derives hg] at hk
  rw [isSome_node?_iff_derives hg']
  exact hk.imp_right h.derives

theorem mem_applications_iff (hg : g.WellFormed) {k : Constituent} {n : Node}
    (h : (g.forest tokens).node? k = some n) {a : Application} :
    a ∈ n.applications ↔ a.rule ∈ g.rules ∧ a.rule.lhs = k.category ∧
      a.children.map (·.category) = a.rule.rhs ∧
      Tile (a.children.map (·.span)) k.span.start k.span.stop ∧
      ∀ child ∈ a.children, ((g.forest tokens).node? child).isSome := by
  simp only [isSome_node?]
  exact (grown g tokens).mem_applications_iff hg h

/-- Only a nonterminal has applications, since no terminal heads a rule. -/
theorem applications_eq_nil (hg : g.WellFormed) {k : Constituent} {n : Node}
    (h : (g.forest tokens).node? k = some n) (hk : g.isTerminal k.category) :
    n.applications = [] := by
  apply List.eq_nil_iff_forall_not_mem.2
  intro a ha
  obtain ⟨hr, hl, -⟩ := (mem_applications_iff hg h).1 ha
  exact not_isTerminal_of_isNonterminal (hg.lhs_isNonterminal _ hr) (hl ▸ hk)

/-- A node without applications was read off its token. -/
theorem isTerminalAt_of_applications_eq_nil (hg : g.WellFormed) {k : Constituent} {n : Node}
    (h : (g.forest tokens).node? k = some n) (hn : n.applications = []) :
    Chart.IsTerminalAt g tokens k.span k.category := by
  have hhas : (g.forest tokens).chart.has k := Chart.has_of_node?_eq_some h
  rcases ((grown g tokens).has_iff_terminal_or_match hg).1 hhas with ⟨-, hk | hk⟩
  · exact hk
  · obtain ⟨rule, hr, hl, children, hmatch⟩ := hk
    have ha := ((grown g tokens).mem_applications_iff hg h (a := ⟨rule, children⟩)).2
      ⟨hr, hl, hmatch⟩
    rw [hn] at ha
    cases ha

theorem isLeaf_iff_isTerminal (hg : g.WellFormed) {k : Constituent} {n : Node}
    (h : (g.forest tokens).node? k = some n) : n.isLeaf ↔ g.isTerminal k.category := by
  rw [Node.isLeaf, List.isEmpty_iff]
  constructor
  · intro hn
    obtain ⟨-, token, -, entry⟩ := isTerminalAt_of_applications_eq_nil hg h hn
    exact (hg.isTerminal_iff k.category).2 ⟨token, entry⟩
  · exact applications_eq_nil hg h

theorem exact_forest (hg : g.WellFormed) : (g.forest tokens).Exact g tokens where
  node_iff := isSome_node?_iff_derives hg
  mem_nodes_iff _ _ := mem_nodes_iff hg
  nodes_nodup := nodes_nodup hg
  application_iff _ _ h _ _ := mem_applications_iff hg h
  increasing _ _ h := (grown g tokens).applications_before hg h
  terminal k n h hk := by
    have hnil := applications_eq_nil hg h hk
    exact ⟨(isTerminalAt_of_applications_eq_nil hg h hnil).1, hnil⟩

end Forest

/-- An enumeration without limits succeeds from every nonterminal, with an exact forest. -/
theorem enumerate_exact (g : Grammar) (hg : g.Built) (start : String)
    (hs : g.isNonterminal start) (tokens : List String) :
    ∃ f, enumerate g start tokens .unlimited = .ok f ∧ f.Exact g tokens :=
  ⟨g.forest tokens, enumerate_unlimited hs, Forest.exact_forest hg.wellFormed⟩

theorem enumerate_exact_looping :
    looping.Built ∧ looping.isNonterminal "S" ∧
      ∃ f, enumerate looping "S" ["x", "x", "x"] .unlimited = .ok f ∧
        f.Exact looping ["x", "x", "x"] :=
  ⟨looping_built, by decide,
    enumerate_exact looping looping_built "S" (by decide) ["x", "x", "x"]⟩

end Readings
