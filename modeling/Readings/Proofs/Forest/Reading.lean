import Readings.Proofs.Forest.Choices
import Readings.Proofs.Forest.Sharing
import Readings.Proofs.Tree.Order
import Readings.Proofs.Tree.Simple

/-!
The readings of a sentence are its parses without repetition, each listed once. They are listed in
the order of trees, whichever constituents lie on cycles.
-/

namespace Readings

open Readings.Span Grammar

namespace Forest

variable {g : Grammar} {tokens : List String}

theorem parses_node_iff (hg : g.WellFormed) {rule : Rule} {span : Span} {n : Node}
    (hn : (g.forest tokens).node? ⟨rule.lhs, span⟩ = some n) {ts : List Tree} :
    (Tree.node rule span ts).Parses g tokens ↔
      ⟨rule, ts.map Tree.constituent⟩ ∈ n.applications ∧ ∀ t ∈ ts, t.Parses g tokens := by
  rw [Tree.parses_node_iff, mem_applications_iff hg hn]
  constructor
  · intro h
    obtain ⟨mem, matched, tile, below⟩ := h
    refine ⟨⟨mem, rfl, matched, tile, fun child hchild ↦ ?_⟩, below⟩
    obtain ⟨t, ht, rfl⟩ := List.mem_map.1 hchild
    rw [isSome_node?]
    exact has_of_parses hg (below t ht)
  · intro h
    obtain ⟨⟨mem, _, matched, tile, _⟩, below⟩ := h
    exact ⟨mem, matched, tile, below⟩

theorem parses_iff_of_applications_eq_nil (hg : g.WellFormed) {k : Constituent} {n : Node}
    (h : (g.forest tokens).node? k = some n) (hn : n.applications = []) {t : Tree} :
    t.Parses g tokens ∧ t.constituent = k ↔
      ∃ token, tokens[k.span.start]? = some token ∧ t = .leaf k.category token k.span.start := by
  constructor
  · intro h
    obtain ⟨ht, hk⟩ := h
    subst hk
    cases t with
    | leaf terminal token position =>
      cases ht with
      | leaf here entry => exact ⟨token, here, rfl⟩
    | node rule span children =>
      obtain ⟨ha, -⟩ := (parses_node_iff hg h).1 ht
      rw [hn] at ha
      cases ha
  · intro h
    obtain ⟨token, here, ht⟩ := h
    subst ht
    obtain ⟨hw, token', here', entry⟩ := isTerminalAt_of_applications_eq_nil hg h hn
    obtain rfl : token = token' := Option.some.inj (here.symm.trans here')
    exact ⟨.leaf here entry, Tree.constituent_leaf hw token⟩

theorem mem_leafValue_trees {f : Forest} {k : Constituent} {t : Tree} :
    t ∈ f.leafValue Algebra.trees k ↔
      ∃ token, f.tokens[k.span.start]? = some token ∧ t = .leaf k.category token k.span.start := by
  rw [leafValue]
  cases f.tokens[k.span.start]? with
  | none => simp [Algebra.trees]
  | some token => simp [Algebra.trees]

/-- If the children of a node have the parses that suit a longer path, it has those that suit the
path. -/
theorem mem_nodeValue_trees (hg : g.WellFormed) {path : List Constituent} {k : Constituent}
    {n : Node} (hn : (g.forest tokens).node? k = some n) (hne : n.applications ≠ [])
    {below : Constituent → List Tree}
    (hbelow : ∀ child t, t ∈ below child ↔
      (t.Parses g tokens ∧ t.SimpleBelow (k :: path)) ∧ t.constituent = child) {t : Tree} :
    t ∈ (g.forest tokens).nodeValue Algebra.trees k below ↔
      (t.Parses g tokens ∧ t.SimpleBelow path) ∧ t.constituent = k := by
  rw [nodeValue_of_applications hn hne]
  simp only [Algebra.trees, ← List.flatMap_def, List.mem_flatMap, List.mem_map, mem_choices,
    List.forall₂_map_right_iff, hbelow, forall₂_and_eq_iff]
  constructor
  · intro h
    obtain ⟨a, ha, ts, ⟨hall, hchildren⟩, ht⟩ := h
    subst ht
    have hka : Constituent.mk a.rule.lhs k.span = k :=
      congrArg (Constituent.mk · k.span) ((mem_applications_iff hg hn).1 ha).2.1
    have hparses := (parses_node_iff hg (hka ▸ hn)).2
      ⟨hchildren ▸ ha, fun t ht ↦ (hall t ht).1⟩
    refine ⟨⟨hparses, Tree.simpleBelow_node_iff.2 fun t ht ↦ ?_⟩, hka⟩
    rw [hka]
    exact (hall t ht).2
  · intro h
    obtain ⟨⟨ht, hs⟩, htk⟩ := h
    subst htk
    cases t with
    | leaf terminal token position =>
      cases ht with
      | leaf here entry =>
        have hterminal := (hg.isTerminal_iff terminal).2 ⟨token, entry⟩
        exact absurd (applications_eq_nil hg hn hterminal) hne
    | node rule span children =>
      obtain ⟨ha, hparses⟩ := (parses_node_iff hg hn).1 ht
      have hsimple := Tree.simpleBelow_node_iff.1 hs
      exact ⟨_, ha, children, ⟨fun t ht ↦ ⟨hparses t ht, hsimple t ht⟩, rfl⟩, rfl⟩

/-- Below a path, a constituent has the parses that repeat neither themselves nor the path. -/
theorem mem_plainValue_trees (hg : g.WellFormed) {path : List Constituent}
    (hpath : (g.forest tokens).IsPath path) {k : Constituent} {t : Tree} :
    t ∈ (g.forest tokens).plainValue Algebra.trees path k ↔
      (t.Parses g tokens ∧ t.SimpleBelow path) ∧ t.constituent = k := by
  have hf := shareable_forest hg tokens
  refine hpath.induction hf (P := fun path ↦ ∀ k t,
    t ∈ (g.forest tokens).plainValue Algebra.trees path k ↔
      (t.Parses g tokens ∧ t.SimpleBelow path) ∧ t.constituent = k)
    (fun path hpath ih k t ↦ ?_) k t
  by_cases hk : k ∈ path
  · rw [plainValue_of_mem hk]
    apply iff_of_false List.not_mem_nil
    intro h
    obtain ⟨⟨ht, hs⟩, htk⟩ := h
    exact ht.constituent_notMem hg hs (htk ▸ hk)
  rw [plainValue_of_notMem hf hpath hk]
  cases hn : (g.forest tokens).node? k with
  | none =>
    rw [nodeValue_of_none hn]
    apply iff_of_false List.not_mem_nil
    intro h
    obtain ⟨⟨ht, _⟩, htk⟩ := h
    have hhas := has_of_parses hg ht
    rw [htk, ← isSome_node?, hn] at hhas
    cases hhas
  | some n =>
    by_cases hnil : n.applications = []
    · have hleaf := parses_iff_of_applications_eq_nil hg hn hnil (t := t)
      rw [nodeValue_of_leaf hn hnil]
      refine mem_leafValue_trees.trans (hleaf.symm.trans ?_)
      refine ⟨fun ⟨ht, htk⟩ ↦ ⟨⟨ht, ?_⟩, htk⟩, fun ⟨⟨ht, _⟩, htk⟩ ↦ ⟨ht, htk⟩⟩
      obtain ⟨token, -, rfl⟩ := hleaf.1 ⟨ht, htk⟩
      exact Tree.simpleBelow_leaf_iff.2 ⟨htk ▸ hk, hpath.nodup⟩
    · exact mem_nodeValue_trees hg hn hnil (ih k hk (hn ▸ rfl))

theorem constituents_of_mem_choices (hg : g.WellFormed) {path : List Constituent}
    (hpath : (g.forest tokens).IsPath path) {children : List Constituent} {ts : List Tree}
    (h : ts ∈ choices (children.map ((g.forest tokens).plainValue Algebra.trees path))) :
    ts.map Tree.constituent = children := by
  rw [mem_choices, List.forall₂_map_right_iff] at h
  simp only [mem_plainValue_trees hg hpath] at h
  exact (forall₂_and_eq_iff.1 h).2

/-- Each node lists its trees in order, if this is how the nodes below it list theirs. -/
theorem nodeValue_trees_increasing (hg : g.WellFormed) {path : List Constituent}
    (hpath : (g.forest tokens).IsPath path) {k : Constituent} {n : Node}
    (hn : (g.forest tokens).node? k = some n) (hne : n.applications ≠ [])
    (hbelow : ∀ child, ((g.forest tokens).plainValue Algebra.trees path child).Pairwise
      Tree.Before) :
    ((g.forest tokens).nodeValue Algebra.trees k
      ((g.forest tokens).plainValue Algebra.trees path)).Pairwise Tree.Before := by
  rw [nodeValue_of_applications hn hne]
  simp only [Algebra.trees, ← List.flatMap_def]
  rw [List.pairwise_flatMap]
  constructor
  · intro a ha
    have hchoices : (choices (a.children.map
        ((g.forest tokens).plainValue Algebra.trees path))).Pairwise _ :=
      choices_pairwise (List.forall_mem_map.2 fun child _ ↦ hbelow child)
    rw [List.pairwise_map]
    refine hchoices.imp_of_mem fun {ts us} hts hus hdiffer ↦ ?_
    have hconstituents := (constituents_of_mem_choices hg hpath hts).trans
      (constituents_of_mem_choices hg hpath hus).symm
    refine Tree.before_node_iff.2 (.inr ⟨rfl, ?_, hdiffer⟩)
    rw [← Tree.map_span_constituent, hconstituents, Tree.map_span_constituent]
  · refine ((grown g tokens).applications_before hg hn).imp fun {a a'} hbefore t ht u hu ↦ ?_
    obtain ⟨ts, hts, rfl⟩ := List.mem_map.1 ht
    obtain ⟨us, hus, rfl⟩ := List.mem_map.1 hu
    refine .root ?_
    rw [constituents_of_mem_choices hg hpath hts, constituents_of_mem_choices hg hpath hus]
    exact hbefore

theorem plainValue_trees_increasing (hg : g.WellFormed) {path : List Constituent}
    (hpath : (g.forest tokens).IsPath path) (k : Constituent) :
    ((g.forest tokens).plainValue Algebra.trees path k).Pairwise Tree.Before := by
  have hf := shareable_forest hg tokens
  refine hpath.induction hf
    (P := fun path ↦ ∀ k, ((g.forest tokens).plainValue Algebra.trees path k).Pairwise Tree.Before)
    (fun path hpath ih k ↦ ?_) k
  by_cases hk : k ∈ path
  · rw [plainValue_of_mem hk]
    exact .nil
  rw [plainValue_of_notMem hf hpath hk]
  cases hn : (g.forest tokens).node? k with
  | none =>
    rw [nodeValue_of_none hn]
    exact .nil
  | some n =>
    by_cases hnil : n.applications = []
    · rw [nodeValue_of_leaf hn hnil, leafValue]
      split
      · exact List.pairwise_singleton _ _
      · exact .nil
    · have hnode : ((g.forest tokens).node? k).isSome := hn ▸ rfl
      exact nodeValue_trees_increasing hg (hpath.cons hk hnode) hn hnil (ih k hk hnode)

theorem plainValue_trees_nodup (hg : g.WellFormed) {path : List Constituent}
    (hpath : (g.forest tokens).IsPath path) (k : Constituent) :
    ((g.forest tokens).plainValue Algebra.trees path k).Nodup :=
  (plainValue_trees_increasing hg hpath k).imp Tree.Before.ne

theorem root?_eq_some_iff {f : Forest} {start : String} {k : Constituent} :
    f.root? start = some k ↔ f.grammar.isNonterminal start ∧ 0 < f.tokens.length ∧
      f.chart.has k ∧ k = ⟨start, ⟨0, f.tokens.length⟩⟩ := by
  have hroot : f.root? start = if f.grammar.isNonterminal start ∧ 0 < f.tokens.length ∧
      f.chart.has ⟨start, ⟨0, f.tokens.length⟩⟩
      then some ⟨start, ⟨0, f.tokens.length⟩⟩ else none := by
    rw [root?, Span.ofBounds?]
    split_ifs <;> simp_all
  rw [hroot, Option.ite_none_right_eq_some, Option.some.injEq]
  constructor
  · intro h
    obtain ⟨⟨hs, hpos, hhas⟩, hk⟩ := h
    exact ⟨hs, hpos, hk ▸ hhas, hk.symm⟩
  · intro h
    obtain ⟨hs, hpos, hhas, hk⟩ := h
    exact ⟨⟨hs, hpos, hk ▸ hhas⟩, hk.symm⟩

/-- A sentence without a root has no node for one. -/
theorem readings_eq_plainValue (hg : g.WellFormed) {start : String} (hs : g.isNonterminal start) :
    (g.forest tokens).readings start =
      (g.forest tokens).plainValue Algebra.trees [] ⟨start, ⟨0, tokens.length⟩⟩ := by
  have hf := shareable_forest hg tokens
  rw [readings]
  cases hroot : (g.forest tokens).root? start with
  | none =>
    have hnone : (g.forest tokens).node? ⟨start, ⟨0, tokens.length⟩⟩ = none := by
      rw [← Option.not_isSome_iff_eq_none, isSome_node?]
      intro hhas
      have hpos := ((grown g tokens).inSentence hhas).1
      have hsome := root?_eq_some_iff.2 ⟨hs, hpos, hhas, rfl⟩
      rw [hroot] at hsome
      cases hsome
    rw [plainValue_of_notMem hf .nil List.not_mem_nil, nodeValue_of_none hnone]
    rfl
  | some k =>
    obtain ⟨-, -, -, rfl⟩ := root?_eq_some_iff.1 hroot
    exact trees_eq_plainValue hf

theorem mem_readings_iff (hg : g.WellFormed) {start : String} (hs : g.isNonterminal start)
    {t : Tree} :
    t ∈ (g.forest tokens).readings start ↔
      (t.Parses g tokens ∧ t.Simple) ∧ t.constituent = ⟨start, ⟨0, tokens.length⟩⟩ := by
  rw [readings_eq_plainValue hg hs, ← Tree.simpleBelow_nil_iff]
  exact mem_plainValue_trees hg .nil

theorem readings_eq_nil {f : Forest} {name : String} (hname : ¬ f.grammar.isNonterminal name) :
    f.readings name = [] := by
  rw [readings, root?, if_neg hname]

theorem isNonterminal_of_mem_readings {f : Forest} {name : String} {t : Tree}
    (ht : t ∈ f.readings name) : f.grammar.isNonterminal name := by
  by_contra hname
  rw [readings_eq_nil hname] at ht
  cases ht

theorem parses_of_mem_readings (hg : g.WellFormed) {start : String} {t : Tree}
    (ht : t ∈ (g.forest tokens).readings start) : t.Parses g tokens :=
  ((mem_readings_iff hg (isNonterminal_of_mem_readings ht)).1 ht).1.1

theorem constituent_of_mem_readings (hg : g.WellFormed) {start : String} {t : Tree}
    (ht : t ∈ (g.forest tokens).readings start) :
    t.constituent = ⟨start, ⟨0, tokens.length⟩⟩ :=
  ((mem_readings_iff hg (isNonterminal_of_mem_readings ht)).1 ht).2

theorem readings_nodup (hg : g.WellFormed) (start : String) :
    ((g.forest tokens).readings start).Nodup := by
  rw [readings]
  cases (g.forest tokens).root? start with
  | none => exact List.nodup_nil
  | some k =>
    dsimp only
    rw [trees_eq_plainValue (shareable_forest hg tokens)]
    exact plainValue_trees_nodup hg .nil k

end Forest

/-- From a nonterminal, the readings of a sentence are the parses of all of it that repeat no
constituent on a path, each listed once, and their leaves are the sentence. -/
theorem readings_exact (g : Grammar) (hg : g.Built) (start : String) (hs : g.isNonterminal start)
    (tokens : List String) :
    ∃ f, enumerate g start tokens .unlimited = .ok f ∧ (f.readings start).Nodup ∧
      (∀ t, t ∈ f.readings start ↔ t.Parses g tokens ∧ t.category = start ∧
        t.span = ⟨0, tokens.length⟩ ∧ t.Simple) ∧
      ∀ t ∈ f.readings start, LeavesOver t.leaves tokens.zipIdx := by
  have hwf := hg.wellFormed
  refine ⟨g.forest tokens, enumerate_unlimited hs, Forest.readings_nodup hwf start,
    fun t ↦ ?_, fun t ht ↦ ?_⟩
  · rw [Forest.mem_readings_iff hwf hs, Tree.constituent, Constituent.mk.injEq]
    constructor
    · intro h
      obtain ⟨⟨ht, hsimple⟩, hcategory, hspan⟩ := h
      exact ⟨ht, hcategory, hspan, hsimple⟩
    · intro h
      obtain ⟨ht, hcategory, hspan, hsimple⟩ := h
      exact ⟨⟨ht, hsimple⟩, hcategory, hspan⟩
  · obtain ⟨⟨hparses, -⟩, hroot⟩ := (Forest.mem_readings_iff hwf hs).1 ht
    have hspan : t.span = ⟨0, tokens.length⟩ := congrArg Constituent.span hroot
    have hleaves := hparses.leavesOver hwf
    rwa [hspan, slice_whole] at hleaves

theorem readings_exact_looping :
    looping.Built ∧ looping.isNonterminal "S" ∧
      ∃ f, enumerate looping "S" ["x", "x"] .unlimited = .ok f ∧ (f.readings "S").Nodup ∧
        (∀ t, t ∈ f.readings "S" ↔ t.Parses looping ["x", "x"] ∧ t.category = "S" ∧
          t.span = ⟨0, 2⟩ ∧ t.Simple) ∧
        ∀ t ∈ f.readings "S", LeavesOver t.leaves [("x", 0), ("x", 1)] :=
  ⟨looping_built, by decide, readings_exact looping looping_built "S" (by decide) ["x", "x"]⟩

/-- Trees with a common root are listed in the order of trees, in which no two come both ways. -/
theorem readings_increasing (g : Grammar) (hg : g.Built) (start : String) (tokens : List String)
    (b : Budget) (f : Forest) (hf : enumerate g start tokens b = .ok f) (name : String)
    (root : Constituent) (hroot : f.root? name = some root) :
    (∀ t ∈ f.readings name, t.constituent = root) ∧ (f.readings name).Pairwise Tree.Before ∧
      ∀ t u, Tree.Before t u → ¬ u.Before t := by
  obtain rfl := eq_forest_of_enumerate hf
  obtain ⟨hs, -, -, rfl⟩ := Forest.root?_eq_some_iff.1 hroot
  refine ⟨fun t ht ↦ Forest.constituent_of_mem_readings hg.wellFormed ht, ?_,
    fun _ _ ↦ Tree.Before.asymm⟩
  rw [Forest.readings_eq_plainValue hg.wellFormed hs]
  exact Forest.plainValue_trees_increasing hg.wellFormed .nil _

theorem readings_increasing_looping :
    looping.Built ∧
      enumerate looping "S" ["x", "x", "x"] .unlimited = .ok (looping.forest ["x", "x", "x"]) ∧
      (looping.forest ["x", "x", "x"]).root? "A" = some ⟨"A", ⟨0, 3⟩⟩ ∧
      (∀ t ∈ (looping.forest ["x", "x", "x"]).readings "A", t.constituent = ⟨"A", ⟨0, 3⟩⟩) ∧
      ((looping.forest ["x", "x", "x"]).readings "A").Pairwise Tree.Before ∧
      ∀ t u, Tree.Before t u → ¬ u.Before t :=
  have hf := enumerate_unlimited (by decide)
  have hnode : ((looping.forest ["x", "x", "x"]).node? ⟨"A", ⟨0, 3⟩⟩).isSome := by
    refine (Forest.isSome_node?_iff_derives looping_built.wellFormed _).2 ⟨by decide, ?_⟩
    exact @Derives.rule looping ⟨⟨"A", ["S"]⟩, 2⟩ [] ["x", "x", "x"] [] (by decide)
      (looping_derives 2) .nil
  have hroot : (looping.forest ["x", "x", "x"]).root? "A" = some ⟨"A", ⟨0, 3⟩⟩ :=
    Forest.root?_eq_some_iff.2 ⟨by decide, by decide, Forest.isSome_node? .. ▸ hnode, rfl⟩
  ⟨looping_built, hf, hroot,
    readings_increasing looping looping_built "S" ["x", "x", "x"] .unlimited _ hf "A" _ hroot⟩

end Readings
