import Readings.Proofs.Forest.Reading

/-!
Declaring one more rule adds readings and takes none away. Those that do not use the rule keep their
order, although the rule may close cycles through constituents that lay on none before.
-/

namespace Readings

open Readings.Span Grammar

/-- One rule is declared after all others. -/
structure Grammar.Extends (g' g : Grammar) (r : Rule) : Prop where
  rules : g'.rules = g.rules ++ [r]
  mem_entries_iff : ∀ e, e ∈ g'.lexicon.entries ↔ e ∈ g.lexicon.entries

theorem Grammar.exists_extends_of_build {d : Draft} {lhs : String} {rhs : List String}
    {g g' : Grammar} (hd : d.build = .ok g) (hd' : (d.declare (.rule lhs rhs)).build = .ok g') :
    ∃ r : Rule, r.toProduction = ⟨lhs, rhs⟩ ∧ g'.Extends g r := by
  have hyields := Draft.yields_of_build hd
  have hyields' := Draft.yields_of_build hd'
  refine ⟨⟨⟨lhs, rhs⟩, d.rules.length⟩, rfl, ?_, fun e ↦ ?_⟩
  · rw [hyields'.rules.rules_eq, hyields.rules.rules_eq]
    exact numbered_concat d.rules ⟨lhs, rhs⟩
  · rw [hyields'.mem_entries_iff, hyields.mem_entries_iff]
    rfl

variable {g g' : Grammar} {r : Rule} {tokens : List String}

namespace Grammar.Extends

variable (h : g'.Extends g r)
include h

theorem within : g.Within g' := by
  refine ⟨fun rule hr ↦ ⟨rule, ?_, rfl⟩, fun e ↦ (h.mem_entries_iff e).2⟩
  rw [h.rules]
  exact List.mem_append_left [r] hr

theorem mem_rules_iff (hg' : g'.WellFormed) {rule : Rule} :
    rule ∈ g.rules ↔ rule ∈ g'.rules ∧ rule.id ≠ r.id := by
  have hincreasing := hg'.increasing
  rw [h.rules, List.pairwise_append] at hincreasing
  have hlt := hincreasing.2.2
  rw [h.rules, List.mem_append, List.mem_singleton]
  constructor
  · intro hr
    exact ⟨.inl hr, Nat.ne_of_lt (hlt rule hr r (List.mem_singleton_self r))⟩
  · intro hr
    obtain ⟨hr | hr, hne⟩ := hr
    · exact hr
    · exact absurd (congrArg Rule.id hr) hne

end Grammar.Extends

namespace Tree

theorem filter_map_node (id : Nat) (rule : Rule) (span : Span) (xss : List (List Tree)) :
    ((choices xss).map (node rule span)).filter (!·.usesRule id) =
      if rule.id = id then []
      else (choices (xss.map (·.filter (!·.usesRule id)))).map (node rule span) := by
  rw [List.filter_map, ← filter_choices]
  split
  · rename_i hid
    simp [Function.comp_def, hid]
  · rename_i hid
    refine congrArg (List.map _) (List.filter_congr fun ts _ ↦ ?_)
    rw [Function.comp_apply, usesRule_node, beq_eq_false_iff_ne.2 hid, Bool.false_or,
      List.not_any_eq_all_not]

/-- A parse that does not use the last rule does not need it. -/
theorem Parses.of_not_usesRule (h : g'.Extends g r) (hg' : g'.WellFormed) {t : Tree}
    (ht : t.Parses g' tokens) (hr : ¬ t.usesRule r.id) : t.Parses g tokens := by
  induction ht with
  | leaf here entry => exact .leaf here ((h.mem_entries_iff _).1 entry)
  | @node rule span children mem matched tile _ ih =>
    rw [usesRule_node, Bool.or_eq_true, not_or, beq_iff_eq, List.any_eq_true] at hr
    refine .node ((h.mem_rules_iff hg').2 ⟨mem, hr.1⟩) matched tile fun t ht ↦ ?_
    exact ih t ht fun huses ↦ hr.2 ⟨t, ht, huses⟩

end Tree

namespace Forest

variable (hg : g.WellFormed) (hg' : g'.WellFormed) (h : g'.Extends g r)
include hg hg' h

/-- A node keeps, in their order, the applications of old rules to old nodes. -/
theorem applications_eq_filter {k : Constituent} {n n' : Node}
    (hn : (g.forest tokens).node? k = some n) (hn' : (g'.forest tokens).node? k = some n') :
    n.applications = n'.applications.filter fun a ↦
      a.rule.id != r.id && a.children.all fun child ↦ ((g.forest tokens).node? child).isSome := by
  refine Application.eq_of_before ((grown g tokens).applications_before hg hn)
    (((grown g' tokens).applications_before hg' hn').filter _) fun a ↦ ?_
  rw [List.mem_filter, mem_applications_iff hg hn, mem_applications_iff hg' hn',
    h.mem_rules_iff hg', Bool.and_eq_true, bne_iff_ne, List.all_eq_true]
  constructor
  · intro ha
    obtain ⟨⟨hr, hne⟩, hl, hmatched, htile, hnodes⟩ := ha
    refine ⟨⟨hr, hl, hmatched, htile, fun child hchild ↦ ?_⟩, hne, hnodes⟩
    exact isSome_node?_of_within hg hg' h.within (hnodes child hchild)
  · intro ha
    obtain ⟨⟨hr, hl, hmatched, htile, -⟩, hne, hnodes⟩ := ha
    exact ⟨⟨hr, hne⟩, hl, hmatched, htile, hnodes⟩

theorem IsPath.of_extends {path : List Constituent} (hpath : (g.forest tokens).IsPath path) :
    (g'.forest tokens).IsPath path :=
  ⟨hpath.nodup, fun k hk ↦ isSome_node?_of_within hg hg' h.within (hpath.isNode k hk)⟩

/-- If what is below agrees apart from the last rule, then so does the node. -/
theorem filter_nodeValue {k : Constituent} {n n' : Node}
    (hn : (g.forest tokens).node? k = some n) (hn' : (g'.forest tokens).node? k = some n')
    {below below' : Constituent → List Tree}
    (hbelow : ∀ child, (below' child).filter (!·.usesRule r.id) = below child)
    (hnone : ∀ child, (g.forest tokens).node? child = none → below child = []) :
    ((g'.forest tokens).nodeValue Algebra.trees k below').filter (!·.usesRule r.id) =
      (g.forest tokens).nodeValue Algebra.trees k below := by
  by_cases hnil : n.applications = []
  · have hleaf : g.isTerminal k.category :=
      (isLeaf_iff_isTerminal hg hn).1 (List.isEmpty_iff.2 hnil)
    have hleaf' : g'.isTerminal k.category := by
      simp only [hg'.isTerminal_iff, h.mem_entries_iff]
      exact (hg.isTerminal_iff _).1 hleaf
    rw [nodeValue_of_leaf hn hnil, nodeValue_of_leaf hn' (applications_eq_nil hg' hn' hleaf')]
    simp only [leafValue, forest]
    cases tokens[k.span.start]? <;> rfl
  · have happs := applications_eq_filter hg hg' h hn hn'
    have hnil' : n'.applications ≠ [] := by
      intro hnil'
      rw [hnil'] at happs
      exact hnil happs
    rw [nodeValue_of_applications hn hnil, nodeValue_of_applications hn' hnil', happs]
    simp only [Algebra.trees, ← List.flatMap_def, List.filter_flatMap, Tree.filter_map_node,
      List.map_map, Function.comp_def, hbelow]
    refine ((List.flatMap_congr fun a ha ↦ ?_).trans
      (flatMap_filter_of_eq_nil fun a _ ha ↦ ?_)).symm
    -- What the old node does not keep applies the new rule or reaches a node that only the new
    -- rule derives; in either case no tree without the rule comes of it.
    · have hne := (Bool.and_eq_true_iff.1 (List.mem_filter.1 ha).2).1
      rw [if_neg (bne_iff_ne.1 hne)]
    · by_cases hid : a.rule.id = r.id
      · rw [if_pos hid]
      · rw [if_neg hid, List.map_eq_nil_iff]
        obtain ⟨child, hchild, hnode⟩ :
            ∃ child ∈ a.children, (g.forest tokens).node? child = none := by simpa [hid] using ha
        exact choices_eq_nil (hnone child hnode ▸ List.mem_map_of_mem hchild)

/-- Below a path of old nodes, the values agree apart from the last rule. -/
theorem filter_plainValue {path : List Constituent} (hpath : (g.forest tokens).IsPath path)
    (k : Constituent) :
    ((g'.forest tokens).plainValue Algebra.trees path k).filter (!·.usesRule r.id) =
      (g.forest tokens).plainValue Algebra.trees path k := by
  have hf := shareable_forest hg tokens
  refine hpath.induction hf (P := fun path ↦ ∀ k,
    ((g'.forest tokens).plainValue Algebra.trees path k).filter (!·.usesRule r.id) =
      (g.forest tokens).plainValue Algebra.trees path k) (fun path hpath ih k ↦ ?_) k
  have hpath' := hpath.of_extends hg hg' h
  -- The induction runs over paths of the smaller forest only: a value off the old nodes is not
  -- computed but has no parse without the new rule.
  by_cases hk : k ∈ path
  · rw [plainValue_of_mem hk, plainValue_of_mem hk]
    rfl
  rw [plainValue_of_notMem hf hpath hk]
  cases hn : (g.forest tokens).node? k with
  | none =>
    rw [nodeValue_of_none hn]
    refine List.filter_eq_nil_iff.2 fun t ht hr ↦ ?_
    obtain ⟨⟨hparses, -⟩, htk⟩ := (mem_plainValue_trees hg' hpath').1 ht
    have hhas := has_of_parses hg (hparses.of_not_usesRule h hg' (by simpa using hr))
    rw [htk, ← isSome_node?, hn] at hhas
    cases hhas
  | some n =>
    have hnode : ((g.forest tokens).node? k).isSome := hn ▸ rfl
    obtain ⟨n', hn'⟩ := Option.isSome_iff_exists.1
      (isSome_node?_of_within hg hg' h.within hnode)
    rw [plainValue_of_notMem (shareable_forest hg' tokens) hpath' hk]
    refine filter_nodeValue hg hg' h hn hn' (ih k hk hnode) fun child hchild ↦ ?_
    by_cases hmem : child ∈ k :: path
    · exact plainValue_of_mem hmem
    · rw [plainValue_of_notMem hf (hpath.cons hk hnode) hmem, nodeValue_of_none hchild]
      rfl

end Forest

/-- Declaring one more rule, after all others, adds to the readings of a sentence those that use it
and changes nothing about the others and their order. -/
theorem readings_extended (d : Draft) (lhs : String) (rhs : List String) (g g' : Grammar)
    (hd : d.build = .ok g) (hd' : (d.declare (.rule lhs rhs)).build = .ok g') (start : String)
    (hs : g.isNonterminal start) (tokens : List String) :
    ∃ r f f', g'.rules = g.rules ++ [r] ∧ r.toProduction = ⟨lhs, rhs⟩ ∧
      enumerate g start tokens .unlimited = .ok f ∧
      enumerate g' start tokens .unlimited = .ok f' ∧
      (f'.readings start).filter (!·.usesRule r.id) = f.readings start := by
  have hg : g.Built := ⟨d, hd⟩
  have hg' : g'.Built := ⟨_, hd'⟩
  obtain ⟨r, hr, hextends⟩ := exists_extends_of_build hd hd'
  have hs' : g'.isNonterminal start :=
    isNonterminal_mono hd hd' rfl rfl (List.subset_append_left _ _) hs
  refine ⟨r, g.forest tokens, g'.forest tokens, hextends.rules, hr, enumerate_unlimited hs,
    enumerate_unlimited hs', ?_⟩
  rw [Forest.readings_eq_plainValue hg.wellFormed hs,
    Forest.readings_eq_plainValue hg'.wellFormed hs']
  exact Forest.filter_plainValue hg.wellFormed hg'.wellFormed hextends .nil _

theorem readings_extended_looping :
    let d : Draft := ⟨"S", [⟨"S", ["S", "S"]⟩, ⟨"S", ["A"]⟩, ⟨"A", ["a"]⟩], [⟨"x", "a"⟩]⟩
    ∃ g g', d.build = .ok g ∧ (d.declare (.rule "A" ["S"])).build = .ok g' ∧ g.isNonterminal "S" ∧
      ∃ r f f', g'.rules = g.rules ++ [r] ∧ r.toProduction = ⟨"A", ["S"]⟩ ∧
        enumerate g "S" ["x", "x"] .unlimited = .ok f ∧
        enumerate g' "S" ["x", "x"] .unlimited = .ok f' ∧
        (f'.readings "S").filter (!·.usesRule r.id) = f.readings "S" := by
  intro d
  obtain ⟨g, hd⟩ : ∃ g, d.build = .ok g := Draft.exists_build_iff.2 (by decide)
  obtain ⟨g', hd'⟩ : ∃ g', (d.declare (.rule "A" ["S"])).build = .ok g' :=
    Draft.exists_build_iff.2 (by decide)
  have hs : g.isNonterminal "S" := (isNonterminal_iff_of_build hd).2 (by decide)
  exact ⟨g, g', hd, hd', hs, readings_extended d "A" ["S"] g g' hd hd' "S" hs ["x", "x"]⟩

end Readings
