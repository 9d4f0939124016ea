import Readings.Proofs.Chart.Growth
import Readings.Proofs.Chart.Node
import Readings.Proofs.Grammar.Built

/-!
The partial matches of a grown chart are exactly the rows of constituents that spell out the
beginning of a rule, and its whole matches those that spell out all of it.
-/

namespace Readings.Chart

open Readings.Span

/-- The constituents are in the chart, spell out the categories and follow one another from
`start` to `stop`. -/
def Matches (c : Chart) (categories : List String) (start stop : Nat)
    (children : List Constituent) : Prop :=
  children.map (·.category) = categories ∧ Tile (children.map (·.span)) start stop ∧
    ∀ k ∈ children, c.has k

variable {c : Chart} {categories : List String} {category : String} {start stop : Nat}
  {children : List Constituent}

theorem matches_nil_iff : c.Matches [] start stop children ↔ children = [] ∧ start = stop := by
  constructor
  · intro h
    obtain ⟨hnil, htile, _⟩ := h
    obtain rfl := List.map_eq_nil_iff.1 hnil
    exact ⟨rfl, tile_nil_iff.1 htile⟩
  · intro h
    obtain ⟨hnil, hstop⟩ := h
    subst hnil hstop
    exact ⟨rfl, .nil, by simp⟩

/-- A match begins with a constituent over what the match of the other categories leaves. -/
theorem matches_cons_iff :
    c.Matches (category :: categories) start stop children ↔
      ∃ mid back, children = ⟨category, ⟨start, mid⟩⟩ :: back ∧ start < mid ∧
        c.has ⟨category, ⟨start, mid⟩⟩ ∧ c.Matches categories mid stop back := by
  constructor
  · intro h
    obtain ⟨hspell, htile, hhas⟩ := h
    obtain ⟨⟨name, start', mid⟩, back, rfl, rfl, hback⟩ := List.map_eq_cons_iff.1 hspell
    obtain ⟨rfl, hlt, hrest⟩ := tile_cons_iff.1 htile
    obtain ⟨hhead, htail⟩ := List.forall_mem_cons.1 hhas
    exact ⟨mid, back, rfl, hlt, hhead, hback, hrest, htail⟩
  · intro h
    obtain ⟨mid, back, rfl, hlt, hhead, hspell, htile, htail⟩ := h
    exact ⟨congrArg (category :: ·) hspell, tile_cons_iff.2 ⟨rfl, hlt, htile⟩,
      List.forall_mem_cons.2 ⟨hhead, htail⟩⟩

/-- A match ends with a constituent over what the match of the other categories leaves. -/
theorem matches_concat_iff :
    c.Matches (categories ++ [category]) start stop children ↔
      ∃ split front, children = front ++ [⟨category, ⟨split, stop⟩⟩] ∧
        c.Matches categories start split front ∧ split < stop ∧
        c.has ⟨category, ⟨split, stop⟩⟩ := by
  constructor
  · intro h
    obtain ⟨hspell, htile, hhas⟩ := h
    obtain ⟨front, back, rfl, hfront, hback⟩ := List.map_eq_append_iff.1 hspell
    obtain ⟨⟨name, split, stop'⟩, rfl, rfl⟩ := List.map_eq_singleton_iff.1 hback
    rw [List.map_append] at htile
    obtain ⟨hrow, hlt, rfl⟩ := tile_concat_iff.1 htile
    exact ⟨split, front, rfl, ⟨hfront, hrow, fun k hk ↦ hhas k (List.mem_append_left _ hk)⟩, hlt,
      hhas _ (by simp)⟩
  · intro h
    obtain ⟨split, front, he, ⟨hspell, htile, hhas⟩, hlt, hlast⟩ := h
    subst he
    refine ⟨by simp [hspell], ?_, fun k hk ↦ ?_⟩
    · rw [List.map_append]
      exact tile_concat_iff.2 ⟨htile, hlt, rfl⟩
    · rcases List.mem_append.1 hk with hk | hk
      · exact hhas k hk
      · exact List.mem_singleton.1 hk ▸ hlast

theorem Matches.mono {c' : Chart} (hsub : ∀ k, c.has k → c'.has k)
    (h : c.Matches categories start stop children) : c'.Matches categories start stop children :=
  ⟨h.1, h.2.1, fun k hk ↦ hsub k (h.2.2 k hk)⟩

theorem Matches.add_length_le (h : c.Matches categories start stop children) :
    start + categories.length ≤ stop := by
  have hlen := h.2.1.add_length_le
  rw [List.length_map] at hlen
  rwa [← h.1, List.length_map]

theorem matches_singleton_iff :
    c.Matches [category] start stop children ↔
      children = [⟨category, ⟨start, stop⟩⟩] ∧ start < stop ∧ c.has ⟨category, ⟨start, stop⟩⟩ := by
  rw [← List.nil_append [category], matches_concat_iff]
  simp only [matches_nil_iff]
  constructor
  · intro h
    obtain ⟨_, _, he, ⟨hnil, hstart⟩, hlt, hhas⟩ := h
    subst hnil hstart
    exact ⟨he, hlt, hhas⟩
  · intro h
    obtain ⟨he, hlt, hhas⟩ := h
    exact ⟨start, [], he, ⟨rfl, rfl⟩, hlt, hhas⟩

theorem mem_newSplits_one_iff (c : Chart) (nodes : List Node) (s : Span) {rule : Rule} (split : Nat)
    (hcategory : rule.rhs[0]? = some category) :
    split ∈ c.newSplits nodes s rule 1 ↔ split = s.start ∧ Node.has nodes category := by
  rw [newSplits, Nat.sub_self, hcategory]
  dsimp only
  rw [if_pos (Nat.le_refl 1)]
  by_cases hhas : Node.has nodes category <;> simp [hhas]

/-- Past the first symbol, a place needs the symbol after it and a shorter match before it. -/
theorem mem_newSplits_iff (c : Chart) (nodes : List Node) (s : Span) {rule : Rule} {dot : Nat}
    (hdot : 0 < dot) (split : Nat) (hcategory : rule.rhs[dot]? = some category) :
    split ∈ c.newSplits nodes s rule (dot + 1) ↔
      (s.start + dot ≤ split ∧ split < s.stop) ∧ c.has ⟨category, ⟨split, s.stop⟩⟩ ∧
        (c.splits? rule dot ⟨s.start, split⟩).isSome := by
  have hne : ¬ dot + 1 ≤ 1 := by omega
  rw [newSplits]
  rw [Nat.add_sub_cancel, hcategory]
  simp only [hne, if_false, List.mem_filter, mem_candidates, Bool.and_eq_true, Nat.add_sub_cancel]

/-- No match has more symbols than the span has tokens. -/
theorem candidates_eq_nil {s : Span} {dot : Nat} (hdot : s.width < dot) :
    candidates s dot = [] := by
  apply List.eq_nil_iff_forall_not_mem.2
  intro split hsplit
  have hin := mem_candidates.1 hsplit
  rw [Span.width] at hdot
  omega

theorem newSplits_eq_nil (c : Chart) (nodes : List Node) {s : Span} (hs : 0 < s.width) (rule : Rule)
    {dot : Nat} (hdot : s.width < dot) : c.newSplits nodes s rule dot = [] := by
  have hne : ¬ dot ≤ 1 := by omega
  rw [newSplits]
  split
  · rfl
  · rw [if_neg hne, candidates_eq_nil hdot, List.filter_nil]

theorem wholeMatches_eq_nil (c : Chart) {s : Span} {rule : Rule} (hwidth : s.width < rule.arity) :
    c.wholeMatches rule s = [] := by
  rw [wholeMatches]
  split
  · rfl
  · rw [candidates_eq_nil hwidth, List.filter_nil, List.flatMap_nil]

theorem partialMatches_succ (c : Chart) {rule : Rule} {dot : Nat}
    (hcategory : rule.rhs[dot]? = some category) (start stop : Nat) :
    c.partialMatches rule start (dot + 1) stop =
      (c.splits rule (dot + 1) ⟨start, stop⟩).flatMap fun split ↦
        (c.partialMatches rule start dot split).map (· ++ [⟨category, ⟨split, stop⟩⟩]) := by
  rw [partialMatches, splits, hcategory]
  cases c.splits? rule (dot + 1) ⟨start, stop⟩ <;> rfl

variable {g : Grammar} {tokens : List String} {width : Nat}

namespace Grown

theorem has_iff (hc : Grown g tokens width c) {k : Constituent} :
    c.has k ↔ (k.span.InSentence tokens.length ∧ k.span.width ≤ width) ∧
      Node.has (c.closedNodes g tokens k.span).1 k.category := by
  rw [Chart.has, hc k.span]
  split
  · rename_i hs
    rw [nodes_cellOver, Node.has_map_sort]
    simp [hs]
  · rename_i hs
    simp [hs]

theorem inSentence (hc : Grown g tokens width c) {k : Constituent} (hk : c.has k) :
    k.span.InSentence tokens.length := (hc.has_iff.1 hk).1.1

/-- There is an entry for the first `dot` symbols of a rule if they are fewer than all, no more than
the span has tokens, and match it. -/
theorem splits?_eq_some_iff (hg : g.WellFormed) (hc : Grown g tokens width c) {rule : Rule}
    (hr : rule ∈ g.rules) {dot : Nat} {s : Span} {places : List Nat} :
    c.splits? rule dot s = some places ↔
      (s.InSentence tokens.length ∧ s.width ≤ width) ∧
        places = c.newSplits (c.closedNodes g tokens s).1 s rule dot ∧ places ≠ [] ∧
        0 < dot ∧ dot < rule.arity ∧ dot ≤ s.width := by
  have hmem {places : List Nat} : ((rule.id, dot), places) ∈ (cellOver g tokens c s).partials ↔
      places = c.newSplits (c.closedNodes g tokens s).1 s rule dot ∧ places ≠ [] ∧
        0 < dot ∧ dot < rule.arity ∧ dot ≤ s.width := by
    rw [partials_cellOver, List.mem_flatMap]
    constructor
    · intro h
      obtain ⟨rule', hr', hentry⟩ := h
      obtain ⟨dot', hkey, hplaces⟩ := mem_partialsOf_iff.1 hentry
      obtain ⟨hid, rfl⟩ := Prod.mk.inj hkey
      rwa [hg.rule_ext hr hr' hid]
    · intro h
      exact ⟨rule, hr, mem_partialsOf_iff.2 ⟨dot, rfl, h⟩⟩
  rw [Chart.splits?, hc s]
  split
  next hs =>
    -- two entries under one key would be of the same rule, so the first one is the only one
    rw [and_iff_right hs, ← hmem, Cell.splits?]
    by_cases hplaces : places = c.newSplits (c.closedNodes g tokens s).1 s rule dot
    · exact lookup_eq_some_iff_mem fun places' h ↦ (hmem.1 h).1.trans hplaces.symm
    · refine ⟨mem_of_lookup_eq_some, fun h ↦ absurd (hmem.1 h).1 hplaces⟩
  next hs => simp [Cell.splits?, hs]

theorem splits_eq (hg : g.WellFormed) (hc : Grown g tokens width c) {rule : Rule}
    (hr : rule ∈ g.rules) {dot : Nat} (hdot : dot + 1 < rule.arity) (s : Span) :
    c.splits rule (dot + 1) s =
      if s.InSentence tokens.length ∧ s.width ≤ width then
        c.newSplits (c.closedNodes g tokens s).1 s rule (dot + 1)
      else [] := by
  have hsome (places : List Nat) : c.splits? rule (dot + 1) s = some places ↔ _ :=
    hc.splits?_eq_some_iff hg hr
  rw [Chart.splits]
  cases hplaces : c.splits? rule (dot + 1) s with
  | some places =>
    obtain ⟨hs, hnew, -⟩ := (hsome places).1 hplaces
    rw [if_pos hs, ← hnew]
    rfl
  | none =>
    split
    next hs =>
      by_contra hne
      have hle : dot + 1 ≤ s.width := by
        by_contra hlt
        exact hne (newSplits_eq_nil c _ hs.1.width_pos rule (by omega)).symm
      have hentry := (hsome _).2 ⟨hs, rfl, Ne.symm hne, dot.succ_pos, hdot, hle⟩
      rw [hplaces] at hentry
      cases hentry
    next => rfl

/-- No entry is empty. -/
theorem isSome_splits?_iff (hc : Grown g tokens width c) {rule : Rule} {dot : Nat} {s : Span} :
    (c.splits? rule dot s).isSome ↔ ∃ place, place ∈ c.splits rule dot s := by
  simp only [mem_splits, Option.isSome_iff_exists]
  constructor
  · intro h
    obtain ⟨places, hplaces⟩ := h
    have hne : places ≠ [] := by
      rw [Chart.splits?, hc s] at hplaces
      split at hplaces
      · obtain ⟨_, -, hentry⟩ := mem_partials_of_splits? g tokens hplaces
        obtain ⟨_, -, -, hne, -⟩ := mem_partialsOf_iff.1 hentry
        exact hne
      · cases hplaces
    obtain ⟨place, hplace⟩ := List.exists_mem_of_ne_nil places hne
    exact ⟨place, places, hplaces, hplace⟩
  · intro h
    obtain ⟨_, places, hplaces, -⟩ := h
    exact ⟨places, hplaces⟩

theorem mem_splits_one_iff (hg : g.WellFormed) (hc : Grown g tokens width c) {rule : Rule}
    (hr : rule ∈ g.rules) (harity : 1 < rule.arity) (hcategory : rule.rhs[0]? = some category)
    (s : Span) (split : Nat) :
    split ∈ c.splits rule 1 s ↔ split = s.start ∧ c.has ⟨category, s⟩ := by
  rw [hc.splits_eq hg hr harity, hc.has_iff]
  by_cases hin : s.InSentence tokens.length ∧ s.width ≤ width
  · rw [if_pos hin, mem_newSplits_one_iff c _ s split hcategory, and_iff_right hin]
  · simp [hin]

theorem mem_splits_succ_iff (hg : g.WellFormed) (hc : Grown g tokens width c) {rule : Rule}
    (hr : rule ∈ g.rules) {dot : Nat} (hdot : dot + 1 + 1 < rule.arity)
    (hcategory : rule.rhs[dot + 1]? = some category) (s : Span) (hs : s.width ≤ width)
    (split : Nat) :
    split ∈ c.splits rule (dot + 1 + 1) s ↔
      (s.start + (dot + 1) ≤ split ∧ split < s.stop) ∧ c.has ⟨category, ⟨split, s.stop⟩⟩ ∧
        ∃ place, place ∈ c.splits rule (dot + 1) ⟨s.start, split⟩ := by
  have hmem := c.mem_newSplits_iff (c.closedNodes g tokens s).1 s dot.succ_pos split hcategory
  rw [hc.splits_eq hg hr hdot, ← hc.isSome_splits?_iff]
  constructor
  · intro h
    split at h
    · exact hmem.1 h
    · cases h
  · intro h
    have hstop := (hc.inSentence h.2.1).2
    have hin : s.InSentence tokens.length := ⟨by omega, hstop⟩
    rw [if_pos ⟨hin, hs⟩]
    exact hmem.2 h

/-- A place is stored if the last symbol is found from it on and the other symbols are matched
before it. -/
theorem mem_splits_iff (hg : g.WellFormed) (hc : Grown g tokens width c) {rule : Rule}
    (hr : rule ∈ g.rules) {dot : Nat} (hdot : dot + 1 < rule.arity)
    (hcategory : rule.rhs[dot]? = some category) (s : Span) (hs : s.width ≤ width) (split : Nat) :
    split ∈ c.splits rule (dot + 1) s ↔
      split < s.stop ∧ c.has ⟨category, ⟨split, s.stop⟩⟩ ∧
        ∃ front, c.Matches (rule.rhs.take dot) s.start split front := by
  induction dot generalizing s category split with
  | zero =>
    rw [Nat.zero_add, hc.mem_splits_one_iff hg hr hdot hcategory, List.take_zero]
    simp only [matches_nil_iff]
    constructor
    · intro h
      obtain ⟨rfl, hhas⟩ := h
      exact ⟨(hc.inSentence hhas).1, hhas, [], rfl, rfl⟩
    · intro h
      obtain ⟨-, hhas, _, -, rfl⟩ := h
      exact ⟨rfl, hhas⟩
  | succ dot ih =>
    have hdot' : dot + 1 < rule.arity := Nat.lt_of_succ_lt hdot
    obtain ⟨last, hlast⟩ : ∃ last, rule.rhs[dot]? = some last :=
      ⟨_, List.getElem?_eq_getElem (Nat.lt_of_succ_lt hdot')⟩
    have hw {place : Nat} (hplace : place < s.stop) : (⟨s.start, place⟩ : Span).width ≤ width :=
      (Nat.sub_le_sub_right hplace.le s.start).trans hs
    rw [hc.mem_splits_succ_iff hg hr hdot hcategory s hs, take_succ_eq hlast]
    constructor
    · intro h
      obtain ⟨⟨-, hlt⟩, hhas, place, hplace⟩ := h
      obtain ⟨hlt', hhas', front, hfront⟩ := (ih hdot' hlast _ (hw hlt) place).1 hplace
      exact ⟨hlt, hhas, _, matches_concat_iff.2 ⟨place, front, rfl, hfront, hlt', hhas'⟩⟩
    · intro h
      obtain ⟨hlt, hhas, _, hmatch⟩ := h
      have hlen := hmatch.add_length_le
      rw [← take_succ_eq hlast, List.length_take_of_le hdot'.le] at hlen
      obtain ⟨place, front, -, hfront, hlt', hhas'⟩ := matches_concat_iff.1 hmatch
      exact ⟨⟨hlen, hlt⟩, hhas, place,
        (ih hdot' hlast _ (hw hlt) place).2 ⟨hlt', hhas', front, hfront⟩⟩

theorem mem_partialMatches_iff (hg : g.WellFormed) (hc : Grown g tokens width c) {rule : Rule}
    (hr : rule ∈ g.rules) {dot : Nat} (hdot : dot < rule.arity) (hzero : dot = 0 → start = stop)
    (hw : stop - start ≤ width) :
    children ∈ c.partialMatches rule start dot stop ↔
      c.Matches (rule.rhs.take dot) start stop children := by
  induction dot generalizing stop children with
  | zero =>
    rw [partialMatches, List.mem_singleton, List.take_zero, matches_nil_iff]
    exact (and_iff_left (hzero rfl)).symm
  | succ dot ih =>
    obtain ⟨category, hcategory⟩ : ∃ category, rule.rhs[dot]? = some category :=
      ⟨_, List.getElem?_eq_getElem (Nat.lt_of_succ_lt hdot)⟩
    have hsplit := hc.mem_splits_iff hg hr hdot hcategory ⟨start, stop⟩ hw
    have hfront (split : Nat) (hs : split ∈ c.splits rule (dot + 1) ⟨start, stop⟩)
        (front : List Constituent) : front ∈ c.partialMatches rule start dot split ↔
          c.Matches (rule.rhs.take dot) start split front := by
      obtain ⟨hlt, _, front', hmatch⟩ := (hsplit split).1 hs
      simp only at hlt
      refine ih (Nat.lt_of_succ_lt hdot) (fun hd ↦ ?_) (by omega)
      subst hd
      exact (matches_nil_iff.1 hmatch).2
    rw [partialMatches_succ c hcategory, take_succ_eq hcategory]
    simp only [List.mem_flatMap, List.mem_map, matches_concat_iff]
    constructor
    · intro h
      obtain ⟨split, hs, front, hmem, he⟩ := h
      obtain ⟨hlt, hhas, _⟩ := (hsplit split).1 hs
      exact ⟨split, front, he.symm, (hfront split hs front).1 hmem, hlt, hhas⟩
    · intro h
      obtain ⟨split, front, he, hmatch, hlt, hhas⟩ := h
      have hs := (hsplit split).2 ⟨hlt, hhas, front, hmatch⟩
      exact ⟨split, hs, front, (hfront split hs front).2 hmatch, he.symm⟩

theorem mem_wholeMatches_iff (hg : g.WellFormed) (hc : Grown g tokens width c) {rule : Rule}
    (hr : rule ∈ g.rules) (harity : 2 ≤ rule.arity) {s : Span} (hs : s.width ≤ width + 1) :
    children ∈ c.wholeMatches rule s ↔ c.Matches rule.rhs s.start s.stop children := by
  obtain ⟨front, category, hrhs⟩ := (List.eq_nil_or_concat' rule.rhs).resolve_left
    (hg.rhs_ne_nil rule hr)
  have hlen : front.length = rule.arity - 1 := by
    rw [Rule.arity, hrhs, List.length_append]
    rfl
  have hfront (split : Nat) (hlt : split < s.stop) (row : List Constituent) :
      row ∈ c.partialMatches rule s.start (rule.arity - 1) split ↔
        c.Matches front s.start split row := by
    have hw : split - s.start ≤ width := by
      rw [Span.width] at hs
      omega
    have htake : rule.rhs.take (rule.arity - 1) = front := by
      rw [hrhs, ← hlen, List.take_left]
    rw [hc.mem_partialMatches_iff hg hr (by omega) (by omega) hw, htake]
  have hlast : rule.rhs.getLast? = some category := by rw [hrhs, List.getLast?_concat]
  simp only [wholeMatches, hlast, List.mem_flatMap, List.mem_filter, mem_candidates, List.mem_map]
  rw [hrhs, matches_concat_iff]
  constructor
  · intro h
    obtain ⟨split, ⟨⟨_, hlt⟩, hhas⟩, row, hrow, he⟩ := h
    exact ⟨split, row, he.symm, (hfront split hlt row).1 hrow, hlt, hhas⟩
  · intro h
    obtain ⟨split, row, he, hmatch, hlt, hhas⟩ := h
    have hle := hmatch.add_length_le
    rw [hlen] at hle
    exact ⟨split, ⟨⟨hle, hlt⟩, hhas⟩, row, (hfront split hlt row).2 hmatch, he.symm⟩

end Grown

section Nodup

theorem candidates_sorted (s : Span) (dot : Nat) : (candidates s dot).Pairwise (· < ·) :=
  List.pairwise_lt_range' 1

theorem newSplits_sorted (c : Chart) (nodes : List Node) (s : Span) (rule : Rule) (dot : Nat) :
    (c.newSplits nodes s rule dot).Pairwise (· < ·) := by
  rw [newSplits]
  split
  · exact .nil
  · split
    · split
      · exact List.pairwise_singleton _ _
      · exact .nil
    · exact (candidates_sorted s dot).filter _

theorem Grown.splits_sorted (hg : g.WellFormed) (hc : Grown g tokens width c) {rule : Rule}
    (hr : rule ∈ g.rules) {dot : Nat} (hdot : dot + 1 < rule.arity) (s : Span) :
    (c.splits rule (dot + 1) s).Pairwise (· < ·) := by
  rw [hc.splits_eq hg hr hdot]
  split
  · exact newSplits_sorted c _ s rule _
  · exact .nil

/-- Rows that are prolonged by constituents over different spans are different. -/
theorem nodup_flatMap_concat {places : List Nat} {rows : Nat → List (List Constituent)}
    {category : String} {stop : Nat} (hplaces : places.Pairwise (· < ·))
    (hrows : ∀ split ∈ places, (rows split).Nodup) :
    (places.flatMap fun split ↦ (rows split).map (· ++ [⟨category, ⟨split, stop⟩⟩])).Nodup := by
  rw [List.nodup_flatMap]
  refine ⟨fun split hs ↦ (hrows split hs).map fun row row' he ↦ List.append_cancel_right he, ?_⟩
  refine hplaces.imp fun {split split'} hlt row hrow hrow' ↦ ?_
  obtain ⟨front, _, rfl⟩ := List.mem_map.1 hrow
  obtain ⟨front', _, he⟩ := List.mem_map.1 hrow'
  have hlast := congrArg List.getLast? he
  simp only [List.getLast?_concat, Option.some.injEq, Constituent.mk.injEq, Span.mk.injEq] at hlast
  omega

theorem partialMatches_nodup (hg : g.WellFormed) (hc : Grown g tokens width c) {rule : Rule}
    (hr : rule ∈ g.rules) {start dot : Nat} (hdot : dot < rule.arity) (stop : Nat) :
    (c.partialMatches rule start dot stop).Nodup := by
  induction dot generalizing stop with
  | zero => exact List.nodup_singleton _
  | succ dot ih =>
    have hcategory := List.getElem?_eq_getElem (Nat.lt_of_succ_lt hdot)
    rw [partialMatches_succ c hcategory]
    exact nodup_flatMap_concat (hc.splits_sorted hg hr hdot _) fun split _ ↦
      ih (Nat.lt_of_succ_lt hdot) split

theorem wholeMatches_nodup (hg : g.WellFormed) (hc : Grown g tokens width c) {rule : Rule}
    (hr : rule ∈ g.rules) (s : Span) : (c.wholeMatches rule s).Nodup := by
  have hpos := hg.arity_pos hr
  rw [wholeMatches]
  split
  · exact List.nodup_nil
  · exact nodup_flatMap_concat ((candidates_sorted s _).filter _) fun split _ ↦
      partialMatches_nodup hg hc hr (by omega) split

end Nodup

end Readings.Chart
