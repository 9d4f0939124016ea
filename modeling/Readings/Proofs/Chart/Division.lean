import Mathlib
import Readings.Proofs.Chart.Matching

/-!
The partial matches of a chart against a search that tries every division of a span. There is an
entry for a beginning of a rule if the search finds a division, and what the entry keeps is where
the last part of such a division may start; following these places finds the same divisions as
trying all of them, and each of them once.
-/

namespace Readings.Chart

open Readings.Span

/-- Every division of the tokens from `start` to `stop` among the categories, such that each of them
gets some tokens and is in the chart over these. All places to divide at are tried. -/
def divisions (c : Chart) : (categories : List String) → (start stop : Nat) →
    List (List Constituent)
  | [], start, stop => if start = stop then [[]] else []
  | category :: rest, start, stop =>
    (List.range' (start + 1) (stop - start)).flatMap fun mid ↦
      if c.has ⟨category, ⟨start, mid⟩⟩ then
        (c.divisions rest mid stop).map (⟨category, ⟨start, mid⟩⟩ :: ·)
      else []

variable {c c' : Chart} {categories : List String} {start stop width : Nat} {row : List Constituent}

theorem mem_divisions_iff :
    row ∈ c.divisions categories start stop ↔ c.Matches categories start stop row := by
  induction categories generalizing start row with
  | nil =>
    rw [divisions, matches_nil_iff]
    by_cases h : start = stop <;> simp [h]
  | cons category categories ih =>
    simp only [divisions, List.mem_flatMap, List.mem_range'_1, List.mem_ite_nil_right, List.mem_map,
      ih, matches_cons_iff]
    constructor
    · intro h
      obtain ⟨mid, ⟨hlt, -⟩, hhas, back, hback, he⟩ := h
      exact ⟨mid, back, he.symm, hlt, hhas, hback⟩
    · intro h
      obtain ⟨mid, back, he, hlt, hhas, hback⟩ := h
      have hle := hback.add_length_le
      exact ⟨mid, by omega, hhas, back, hback, he.symm⟩

theorem divisions_nodup (c : Chart) (categories : List String) (start stop : Nat) :
    (c.divisions categories start stop).Nodup := by
  induction categories generalizing start with
  | nil =>
    rw [divisions]
    split
    · exact List.nodup_singleton _
    · exact List.nodup_nil
  | cons category categories ih =>
    rw [divisions, List.nodup_flatMap]
    constructor
    · intro mid _
      split
      · exact (ih mid).map fun _ _ he ↦ (List.cons.inj he).2
      · exact List.nodup_nil
    · refine (List.pairwise_lt_range' 1).imp fun {mid mid'} hlt row hrow hrow' ↦ ?_
      rw [List.mem_ite_nil_right, List.mem_map] at hrow hrow'
      obtain ⟨-, back, -, rfl⟩ := hrow
      obtain ⟨-, back', -, he⟩ := hrow'
      simp only [List.cons.injEq, Constituent.mk.injEq, Span.mk.injEq] at he
      omega

/-- Charts that agree on narrow spans have the same rows of narrow constituents. -/
theorem AgreeBelow.matches_iff (h : AgreeBelow width c c')
    (hwidth : stop - start < width ∨ stop - start = width ∧ 2 ≤ categories.length) :
    c.Matches categories start stop row ↔ c'.Matches categories start stop row := by
  refine and_congr_right fun hspell ↦ and_congr_right fun htile ↦ forall₂_congr fun k hk ↦ ?_
  have hmem : k.span ∈ row.map (·.span) := List.mem_map_of_mem hk
  suffices hlt : k.span.width < width by rw [h.has_eq hlt]
  rcases hwidth with hlt | ⟨rfl, hlen⟩
  · have hin := htile.bounds hmem
    rw [Span.width]
    omega
  · rw [← hspell, List.length_map, ← List.length_map (f := (·.span))] at hlen
    exact htile.width_lt hlen hmem

/-- The entry of a chart for the first `dot` symbols of a rule over a span, beside what a search for
divisions finds. -/
structure Tabulated (c : Chart) (rule : Rule) (dot : Nat) (s : Span) : Prop where
  isSome_iff : (c.splits? rule dot s).isSome ↔
    c.divisions (rule.rhs.take dot) s.start s.stop ≠ []
  ascending : ∀ places, c.splits? rule dot s = some places → places.Pairwise (· < ·)
  /-- The places of an entry are those at which the last part of a division starts. -/
  mem_iff : ∀ places, c.splits? rule dot s = some places → ∀ split, split ∈ places ↔
    ∃ row ∈ c.divisions (rule.rhs.take dot) s.start s.stop,
      row.getLast?.map (·.span.start) = some split
  perm : (c.partialMatches rule s.start dot s.stop).Perm
    (c.divisions (rule.rhs.take dot) s.start s.stop)
  /-- There are tokens behind each place, and before it as many at least as symbols before the
  last. -/
  inside : ∀ places, c.splits? rule dot s = some places → ∀ split ∈ places,
    s.start + (dot - 1) ≤ split ∧ split < s.stop

/-- What entries there are for a span: no two under one key, none without places, and each for a
proper beginning of a rule of the grammar that has no more symbols than the span has tokens. -/
structure Indexed (g : Grammar) (c : Chart) (s : Span) : Prop where
  keys_nodup : ((c.cell s).partials.map (·.1)).Nodup
  bounds : ∀ entry ∈ (c.cell s).partials, entry.2 ≠ [] ∧ ∃ rule ∈ g.rules, ∃ dot,
    entry.1 = (rule.id, dot) ∧ 0 < dot ∧ dot < rule.arity ∧ dot ≤ s.width

/-- What a chart makes of a whole rule over a span, beside what a search for divisions finds. -/
structure Completed (c : Chart) (rule : Rule) (s : Span) : Prop where
  perm : (c.wholeMatches rule s).Perm (c.divisions rule.rhs s.start s.stop)
  /-- There are tokens before and behind each place that is tried. -/
  inside : ∀ split ∈ candidates s rule.arity, s.start < split ∧ split < s.stop
  parts : ∀ row ∈ c.wholeMatches rule s, ∀ k ∈ row, k.span.start < k.span.stop

variable {g : Grammar} {tokens : List String}

theorem keys_partialsOf_nodup (c : Chart) (nodes : List Node) (s : Span) (rule : Rule) :
    ((c.partialsOf nodes s rule).map (·.1)).Nodup := by
  have hkeys : ((List.range' 1 (min rule.arity (s.width + 1) - 1)).map (rule.id, ·)).Nodup :=
    List.Nodup.map (fun _ _ he ↦ (Prod.mk.inj he).2) ((List.pairwise_lt_range' 1).imp Nat.ne_of_lt)
  refine List.Nodup.sublist (List.filter_sublist.map _) ?_
  rwa [List.map_map]

theorem keys_partials_nodup (hg : g.WellFormed) (c : Chart) (s : Span) :
    ((cellOver g tokens c s).partials.map (·.1)).Nodup := by
  rw [partials_cellOver, List.map_flatMap, List.nodup_flatMap]
  refine ⟨fun rule _ ↦ keys_partialsOf_nodup c _ s rule, ?_⟩
  refine hg.increasing.imp fun {rule rule'} hlt key hkey hkey' ↦ ?_
  obtain ⟨⟨_, places⟩, hentry, rfl⟩ := List.mem_map.1 hkey
  obtain ⟨⟨_, places'⟩, hentry', hsame⟩ := List.mem_map.1 hkey'
  obtain ⟨dot, rfl, -⟩ := mem_partialsOf_iff.1 hentry
  obtain ⟨dot', rfl, -⟩ := mem_partialsOf_iff.1 hentry'
  simp only [Prod.mk.injEq] at hsame
  omega

theorem indexed (hg : g.WellFormed) (hc : AgreeBelow (width + 1) (upTo g tokens width) c) {s : Span}
    (hs : s.width ≤ width) : c.Indexed g s := by
  have hcell := hc s (Nat.lt_succ_of_le hs)
  rw [cell_upTo] at hcell
  split at hcell
  · constructor
    · rw [← hcell]
      exact keys_partials_nodup hg _ s
    · rintro ⟨key, places⟩ hentry
      rw [← hcell, partials_cellOver, List.mem_flatMap] at hentry
      obtain ⟨rule, hr, hentry⟩ := hentry
      obtain ⟨dot, hkey, -, hne, hbounds⟩ := mem_partialsOf_iff.1 hentry
      exact ⟨hne, rule, hr, dot, hkey, hbounds⟩
  · constructor
    · simp [← hcell]
    · simp [← hcell]

/-- What is found over a span of the held widths is what is found there in the end. -/
theorem has_iff_of_agree (hc : AgreeBelow (width + 1) (upTo g tokens width) c) {k : Constituent}
    (hk : k.span.width ≤ width) : c.has k ↔ (upTo g tokens tokens.length).has k := by
  rw [← hc.has_eq (Nat.lt_succ_of_le hk), has, has, cell_upTo, cell_upTo]
  by_cases hin : k.span.InSentence tokens.length
  · simp [hin, hk, hin.width_le]
  · simp [hin]

section Agree

variable {rule : Rule} {dot : Nat} {s : Span} (hg : g.WellFormed)
  (hc : AgreeBelow (width + 1) (upTo g tokens width) c) (hr : rule ∈ g.rules)
include hg hc hr

section Partial

variable (hdot : 0 < dot) (hlt : dot < rule.arity) (hs : s.width ≤ width)
include hdot hlt hs

/-- The entry for the first `dot` symbols of a rule has the places at which the last part of a
division starts. -/
theorem mem_splits_iff_divisions (split : Nat) :
    split ∈ c.splits rule dot s ↔ ∃ row ∈ c.divisions (rule.rhs.take dot) s.start s.stop,
      row.getLast?.map (·.span.start) = some split := by
  obtain ⟨dot, rfl⟩ := Nat.exists_eq_add_of_le' hdot
  obtain ⟨category, hcategory⟩ : ∃ category, rule.rhs[dot]? = some category :=
    ⟨_, List.getElem?_eq_getElem (Nat.lt_of_succ_lt hlt)⟩
  have hmem := (grown_upTo g tokens width).mem_splits_iff hg hr hlt hcategory s hs split
  rw [splits, hc.splits?_eq rule (dot + 1) (Nat.lt_succ_of_le hs), ← splits] at hmem
  have hmatches (row : List Constituent) :
      row ∈ c.divisions (rule.rhs.take (dot + 1)) s.start s.stop ↔ ∃ split front,
        row = front ++ [⟨category, ⟨split, s.stop⟩⟩] ∧
          (upTo g tokens width).Matches (rule.rhs.take dot) s.start split front ∧
            split < s.stop ∧ (upTo g tokens width).has ⟨category, ⟨split, s.stop⟩⟩ := by
    rw [mem_divisions_iff, ← hc.matches_iff (.inl (Nat.lt_succ_of_le hs)), take_succ_eq hcategory,
      matches_concat_iff]
  simp only [hmem, hmatches]
  constructor
  · intro h
    obtain ⟨hstop, hhas, front, hfront⟩ := h
    refine ⟨_, ⟨split, front, rfl, hfront, hstop, hhas⟩, ?_⟩
    rw [List.getLast?_concat]
    rfl
  · intro h
    obtain ⟨_, ⟨split', front, rfl, hfront, hstop, hhas⟩, hlast⟩ := h
    rw [List.getLast?_concat] at hlast
    obtain rfl := Option.some.inj hlast
    exact ⟨hstop, hhas, front, hfront⟩

theorem partialMatches_perm_divisions :
    (c.partialMatches rule s.start dot s.stop).Perm
      (c.divisions (rule.rhs.take dot) s.start s.stop) := by
  have hgrown := grown_upTo g tokens width
  have hwidth : s.stop - s.start < width + 1 := Nat.lt_succ_of_le hs
  rw [← partialMatches_congr (upTo_splitsInside g tokens width) hc rule hwidth]
  refine (List.perm_ext_iff_of_nodup (partialMatches_nodup hg hgrown hr hlt _)
    (divisions_nodup c _ _ _)).2 fun row ↦ ?_
  rw [hgrown.mem_partialMatches_iff hg hr hlt (fun hzero ↦ absurd hzero hdot.ne') hs,
    mem_divisions_iff, hc.matches_iff (.inl hwidth)]

theorem tabulated : c.Tabulated rule dot s := by
  have hgrown := grown_upTo g tokens width
  have hentry := hc.splits?_eq rule dot (Nat.lt_succ_of_le hs)
  have hmem := mem_splits_iff_divisions hg hc hr hdot hlt hs
  have hplaces {places : List Nat} (h : c.splits? rule dot s = some places) :
      c.splits rule dot s = places := by
    rw [splits, h]
    rfl
  constructor
  case isSome_iff =>
    have hsome : (c.splits? rule dot s).isSome ↔ ∃ split, split ∈ c.splits rule dot s := by
      rw [splits, ← hentry]
      exact hgrown.isSome_splits?_iff
    rw [hsome]
    constructor
    · intro h
      obtain ⟨split, hsplit⟩ := h
      obtain ⟨row, hrow, -⟩ := (hmem split).1 hsplit
      exact List.ne_nil_of_mem hrow
    · intro h
      obtain ⟨row, hrow⟩ := List.exists_mem_of_ne_nil _ h
      have hlen := congrArg List.length (mem_divisions_iff.1 hrow).1
      rw [List.length_map, List.length_take_of_le hlt.le] at hlen
      have hne : row ≠ [] := List.ne_nil_of_length_pos (hlen ▸ hdot)
      refine ⟨(row.getLast hne).span.start, (hmem _).2 ⟨row, hrow, ?_⟩⟩
      rw [List.getLast?_eq_some_getLast hne]
      rfl
  case ascending =>
    intro places h
    obtain ⟨-, rfl, -⟩ := (hgrown.splits?_eq_some_iff hg hr).1 (hentry.trans h)
    exact newSplits_sorted _ _ s rule dot
  case mem_iff =>
    intro places h split
    rw [← hplaces h]
    exact hmem split
  case perm => exact partialMatches_perm_divisions hg hc hr hdot hlt hs
  case inside =>
    intro places h split hsplit
    obtain ⟨dot, rfl⟩ := Nat.exists_eq_add_of_le' hdot
    obtain ⟨category, hcategory⟩ : ∃ category, rule.rhs[dot]? = some category :=
      ⟨_, List.getElem?_eq_getElem (Nat.lt_of_succ_lt hlt)⟩
    obtain ⟨hstop, -, front, hfront⟩ := (hgrown.mem_splits_iff hg hr hlt hcategory s hs split).1
      (mem_splits.2 ⟨places, hentry.trans h, hsplit⟩)
    have hle := hfront.add_length_le
    rw [List.length_take_of_le (Nat.le_of_lt (Nat.lt_of_succ_lt hlt))] at hle
    omega

end Partial

theorem completed (harity : 2 ≤ rule.arity) (hs : s.width = width + 1) : c.Completed rule s := by
  have hgrown := grown_upTo g tokens width
  have hperm : (c.wholeMatches rule s).Perm (c.divisions rule.rhs s.start s.stop) := by
    rw [← wholeMatches_congr (upTo_splitsInside g tokens width) (hs ▸ hc) harity]
    refine (List.perm_ext_iff_of_nodup (wholeMatches_nodup hg hgrown hr s)
      (divisions_nodup c _ _ _)).2 fun row ↦ ?_
    rw [hgrown.mem_wholeMatches_iff hg hr harity hs.le, mem_divisions_iff,
      hc.matches_iff (.inr ⟨hs, harity⟩)]
  refine ⟨hperm, fun split hsplit ↦ ?_, fun row hrow k hk ↦ ?_⟩
  · have hin := mem_candidates.1 hsplit
    omega
  · obtain ⟨-, htile, -⟩ := mem_divisions_iff.1 (hperm.mem_iff.1 hrow)
    exact (htile.bounds (List.mem_map_of_mem hk)).2.1

end Agree

/-- In every chart that holds the cells of all spans of at most some width, whatever else it holds,
the entries of these spans and the whole matches of the next wider ones are those that a search for
divisions finds, each match once. -/
theorem divisions_tabulated (g : Grammar) (hg : g.Built) (tokens : List String) (width : Nat)
    (c : Chart) (hc : AgreeBelow (width + 1) (upTo g tokens width) c) (rule : Rule)
    (hr : rule ∈ g.rules) :
    (∀ k : Constituent, k.span.width ≤ width → (c.has k ↔ (upTo g tokens tokens.length).has k)) ∧
      (∀ categories start stop, (c.divisions categories start stop).Nodup ∧
        ∀ row, row ∈ c.divisions categories start stop ↔ c.Matches categories start stop row) ∧
      (∀ s, s.width ≤ width → c.Indexed g s) ∧
      (∀ dot s, 0 < dot → dot < rule.arity → s.width ≤ width → c.Tabulated rule dot s) ∧
      (2 ≤ rule.arity → ∀ s, s.width = width + 1 → c.Completed rule s) := by
  have hwf := hg.wellFormed
  refine ⟨fun k ↦ has_iff_of_agree hc, fun categories start stop ↦ ?_, fun s ↦ indexed hwf hc,
    fun dot s ↦ ?_, fun harity s ↦ ?_⟩
  · exact ⟨divisions_nodup c categories start stop, fun _ ↦ mem_divisions_iff⟩
  · exact tabulated hwf hc hr
  · exact completed hwf hc hr harity

theorem divisions_tabulated_tripling :
    let c := upTo Grammar.tripling ["x", "x", "x", "x"] 4
    let rule : Rule := ⟨⟨"S", ["A", "A", "A"]⟩, 0⟩
    Grammar.tripling.Built ∧ AgreeBelow 4 (upTo Grammar.tripling ["x", "x", "x", "x"] 3) c ∧
      rule ∈ Grammar.tripling.rules ∧ c.Tabulated rule 2 ⟨0, 3⟩ ∧
      c.splits? rule 2 ⟨0, 3⟩ = some [1, 2] ∧ c.splits? rule 2 ⟨0, 1⟩ = none ∧
      c.Completed rule ⟨0, 4⟩ ∧ (c.wholeMatches rule ⟨0, 4⟩).length = 3 := by
  have hagree : AgreeBelow 4 (upTo Grammar.tripling ["x", "x", "x", "x"] 3)
      (upTo Grammar.tripling ["x", "x", "x", "x"] 4) := upTo_agree _ _ (by decide) (by decide)
  obtain ⟨-, -, -, htable, hwhole⟩ := divisions_tabulated Grammar.tripling Grammar.tripling_built
    _ 3 _ hagree ⟨⟨"S", ["A", "A", "A"]⟩, 0⟩ (by decide)
  exact ⟨Grammar.tripling_built, hagree, by decide,
    htable 2 ⟨0, 3⟩ (by decide) (by decide) (by decide), by cbv, by cbv,
    hwhole (by decide) ⟨0, 4⟩ rfl, by cbv⟩

end Readings.Chart
