import Mathlib.Data.List.Nodup
import Readings.Chart.Growth
import Readings.Proofs.List
import Readings.Proofs.Tree.Tile

/-!
The cell of a span is a function of the cells of narrower spans. So every cell of a chart that has
grown to some width satisfies one equation over that same chart, whatever came after it.
-/

namespace Readings

/-- The span is not empty and ends within a sentence of `n` tokens. -/
def Span.InSentence (n : Nat) (s : Span) : Prop := s.start < s.stop ∧ s.stop ≤ n

instance (n : Nat) (s : Span) : Decidable (s.InSentence n) :=
  inferInstanceAs (Decidable (_ ∧ _))

namespace Span

theorem mem_ofSentence {n : Nat} {s : Span} : s ∈ ofSentence n ↔ s.InSentence n := by
  rw [ofSentence, InSentence]
  simp only [List.mem_flatMap, List.mem_range'_1, mem_ofSentenceWidth]
  constructor
  · intro h
    obtain ⟨width, hw, hstop, hstart⟩ := h
    omega
  · intro h
    obtain ⟨hlt, hle⟩ := h
    exact ⟨s.stop - s.start, by omega, by omega, by omega⟩

theorem InSentence.width_pos {n : Nat} {s : Span} (hs : s.InSentence n) : 0 < s.width :=
  Nat.sub_pos_of_lt hs.1

theorem InSentence.width_le {n : Nat} {s : Span} (hs : s.InSentence n) : s.width ≤ n :=
  Nat.le_trans (Nat.sub_le _ _) hs.2

theorem slice_replicate {α : Type} {n : Nat} {s : Span} (a : α) (hs : s.InSentence n) :
    s.slice (List.replicate n a) = List.replicate s.width a := by
  have hle : s.width ≤ n - s.start := Nat.sub_le_sub_right hs.2 s.start
  rw [slice, List.drop_replicate, List.take_replicate, Nat.min_eq_left hle]

/-- The order in which the spans of a sentence are analysed. -/
def Precedes (s t : Span) : Prop := s.width < t.width ∨ s.width = t.width ∧ s.start < t.start

instance : Std.Irrefl Precedes where
  irrefl s h := by
    rw [Precedes] at h
    omega

instance : Std.Antisymm Precedes where
  antisymm s t h h' := by
    rw [Precedes] at h h'
    omega

theorem ofSentence_sorted (n : Nat) : (ofSentence n).Pairwise Precedes := by
  rw [ofSentence, List.pairwise_flatMap]
  refine ⟨fun width _ ↦ ?_, (List.pairwise_lt_range' 1).imp fun {w w'} hlt s hs t ht ↦ ?_⟩
  · rw [ofSentenceWidth, List.pairwise_map]
    refine List.pairwise_lt_range.imp fun {i j} hlt ↦ .inr ?_
    rw [width_ofWidth, width_ofWidth]
    exact ⟨rfl, hlt⟩
  · have hs := (mem_ofSentenceWidth.1 hs).1
    have ht := (mem_ofSentenceWidth.1 ht).1
    rw [Precedes, width, width]
    omega

theorem ofSentence_nodup (n : Nat) : (ofSentence n).Nodup := (ofSentence_sorted n).nodup

end Span

namespace Chart

/-- The places that are stored for the first `dot` symbols of a rule, none without an entry. -/
def splits (c : Chart) (rule : Rule) (dot : Nat) (s : Span) : List Nat :=
  (c.splits? rule dot s).getD []

theorem mem_splits {c : Chart} {rule : Rule} {dot : Nat} {s : Span} {split : Nat} :
    split ∈ c.splits rule dot s ↔
      ∃ places, c.splits? rule dot s = some places ∧ split ∈ places := by
  rw [splits]
  cases c.splits? rule dot s <;> simp

/-- Stored places lie within the span that they are stored for. -/
def SplitsInside (c : Chart) : Prop :=
  ∀ rule dot s, ∀ split ∈ c.splits rule dot s, s.start ≤ split ∧ split < s.stop

/-- The charts have the same cells over all spans of less than some width. -/
def AgreeBelow (width : Nat) (c c' : Chart) : Prop :=
  ∀ s : Span, s.width < width → c.cell s = c'.cell s

section Congruence

variable {c c' : Chart} {s : Span}

theorem AgreeBelow.has_eq {width : Nat} (h : AgreeBelow width c c') {k : Constituent}
    (hk : k.span.width < width) : c.has k = c'.has k := by
  rw [has, has, h k.span hk]

theorem AgreeBelow.splits?_eq {width : Nat} (h : AgreeBelow width c c') (rule : Rule) (dot : Nat)
    (hs : s.width < width) : c.splits? rule dot s = c'.splits? rule dot s := by
  rw [splits?, splits?, h s hs]

theorem mem_candidates {dot split : Nat} :
    split ∈ candidates s dot ↔ s.start + (dot - 1) ≤ split ∧ split < s.stop := by
  rw [candidates, List.mem_range'_1]
  omega

theorem partialMatches_congr {width : Nat} (hc : c.SplitsInside) (h : AgreeBelow width c c')
    (rule : Rule) {start dot stop : Nat} (hs : stop - start < width) :
    c.partialMatches rule start dot stop = c'.partialMatches rule start dot stop := by
  induction dot generalizing stop with
  | zero => rfl
  | succ dot ih =>
    rw [partialMatches, partialMatches, ← h.splits?_eq rule (dot + 1) (s := ⟨start, stop⟩) hs]
    split
    next places _ hplaces _ =>
      refine List.flatMap_congr fun split hsplit ↦ ?_
      have hin := hc _ _ _ split (mem_splits.2 ⟨places, hplaces, hsplit⟩)
      rw [ih (by simp only at hin; omega)]
    next => rfl

theorem wholeMatches_congr (hc : c.SplitsInside) (h : AgreeBelow s.width c c') {rule : Rule}
    (hr : 2 ≤ rule.arity) : c.wholeMatches rule s = c'.wholeMatches rule s := by
  unfold wholeMatches
  split
  · rfl
  · have hfilter : ∀ split ∈ candidates s rule.arity,
        ∀ category, c.has ⟨category, ⟨split, s.stop⟩⟩ = c'.has ⟨category, ⟨split, s.stop⟩⟩ := by
      intro split hsplit category
      have hin := mem_candidates.1 hsplit
      exact h.has_eq (by simp only [Span.width]; omega)
    rw [List.filter_congr fun split hsplit ↦ hfilter split hsplit _]
    refine List.flatMap_congr fun split hsplit ↦ ?_
    have hin := mem_candidates.1 (List.mem_of_mem_filter hsplit)
    rw [partialMatches_congr hc h rule (by simp only [Span.width]; omega)]

theorem newSplits_congr (h : AgreeBelow s.width c c') (nodes : List Node) (rule : Rule)
    (dot : Nat) : c.newSplits nodes s rule dot = c'.newSplits nodes s rule dot := by
  unfold newSplits
  split
  · rfl
  · split
    · rfl
    · refine List.filter_congr fun split hsplit ↦ ?_
      have hin := mem_candidates.1 hsplit
      rw [h.has_eq (by simp only [Span.width]; omega),
        h.splits?_eq rule (dot - 1) (by simp only [Span.width]; omega)]

variable (g : Grammar) (tokens : List String)

/-- The nodes of a cell before its closure, and the number of applications recorded by then. -/
def matchedNodes (c : Chart) (s : Span) : List Node × Nat :=
  g.rules.foldl (c.recordRule s) (terminalNodes g tokens s, 0)

/-- The nodes of a cell after its closure, and the number of applications that closed it. -/
def closedNodes (c : Chart) (s : Span) : List Node × Nat :=
  Unary.closure s (g.rules.filter (·.isUnary)) (c.matchedNodes g tokens s).1

theorem nodes_cellOver (c : Chart) (s : Span) :
    (cellOver g tokens c s).nodes = (c.closedNodes g tokens s).1.map Node.sort := rfl

theorem partials_cellOver (c : Chart) (s : Span) :
    (cellOver g tokens c s).partials =
      g.rules.flatMap (c.partialsOf (c.closedNodes g tokens s).1 s) := rfl

theorem recordRule_congr (hc : c.SplitsInside) (h : AgreeBelow s.width c c') :
    c.recordRule s = c'.recordRule s := by
  funext found rule
  unfold recordRule
  split
  · rfl
  · rename_i hr
    rw [Bool.or_eq_true, decide_eq_true_eq, not_or] at hr
    rw [wholeMatches_congr hc h (Nat.le_of_not_lt hr.1)]

/-- A cell depends on the cells of narrower spans only. -/
theorem cellOver_congr (hc : c.SplitsInside) (h : AgreeBelow s.width c c') :
    cellOver g tokens c s = cellOver g tokens c' s := by
  have hpartials (nodes : List Node) : c.partialsOf nodes s = c'.partialsOf nodes s := by
    funext rule
    simp only [partialsOf, newSplits_congr h nodes rule]
  unfold cellOver
  rw [recordRule_congr hc h]
  simp only [hpartials]

end Congruence

section Growth

variable (g : Grammar) (tokens : List String)

theorem getElem?_foldl_insert (spans : List Span) (f : Span → Cell) (c : Chart) (s : Span) :
    ((spans.map fun t ↦ (t, f t)).foldl (fun c p ↦ c.insert p.1 p.2) c).cells[s]? =
      if s ∈ spans then some (f s) else c.cells[s]? := by
  induction spans generalizing c with
  | nil => rfl
  | cons t spans ih =>
    rw [List.map_cons, List.foldl_cons, ih]
    simp only [insert, Std.HashMap.getElem?_insert, beq_iff_eq]
    by_cases hs : s ∈ spans
    · simp [hs]
    · by_cases ht : t = s
      · simp [ht]
      · simp [hs, ht, Ne.symm ht]

theorem cell_foldl_insert (spans : List Span) (f : Span → Cell) (c : Chart) (s : Span) :
    ((spans.map fun t ↦ (t, f t)).foldl (fun c p ↦ c.insert p.1 p.2) c).cell s =
      if s ∈ spans then f s else c.cell s := by
  rw [cell, getElem?_foldl_insert]
  split <;> rfl

theorem cell_upTo (width : Nat) (s : Span) :
    (upTo g tokens width).cell s =
      if s.InSentence tokens.length ∧ s.width ≤ width then
        cellOver g tokens (upTo g tokens (s.width - 1)) s
      else {} := by
  induction width with
  | zero =>
    have hs : ¬ (s.InSentence tokens.length ∧ s.width ≤ 0) := by
      rw [Span.InSentence, Span.width]
      omega
    rw [if_neg hs]
    exact cell_empty s
  | succ width ih =>
    rw [upTo, extend, cell_foldl_insert, ih]
    have hmem : s ∈ Span.ofSentenceWidth tokens.length (width + 1) ↔
        s.InSentence tokens.length ∧ s.width = width + 1 := by
      rw [Span.mem_ofSentenceWidth]
      rw [Span.InSentence, Span.width]
      omega
    by_cases hs : s.InSentence tokens.length
    · by_cases hw : s.width = width + 1
      · simp [hmem, hs, hw]
      · have hle : s.width ≤ width + 1 ↔ s.width ≤ width := by omega
        simp [hmem, hs, hw, hle]
    · simp [hmem, hs]

theorem newSplits_bounds (c : Chart) (nodes : List Node) {s : Span} (hs : s.start < s.stop)
    {rule : Rule} {dot split : Nat} (h : split ∈ c.newSplits nodes s rule dot) :
    s.start ≤ split ∧ split < s.stop := by
  rw [newSplits] at h
  split at h
  · cases h
  · split at h
    · split at h
      · obtain rfl := List.mem_singleton.1 h
        exact ⟨Nat.le_refl _, hs⟩
      · cases h
    · have hin := mem_candidates.1 (List.mem_of_mem_filter h)
      exact ⟨by omega, hin.2⟩

theorem mem_partialsOf_iff {c : Chart} {nodes : List Node} {s : Span} {rule : Rule}
    {key : Nat × Nat} {places : List Nat} :
    (key, places) ∈ c.partialsOf nodes s rule ↔ ∃ dot, key = (rule.id, dot) ∧
      places = c.newSplits nodes s rule dot ∧ places ≠ [] ∧
      0 < dot ∧ dot < rule.arity ∧ dot ≤ s.width := by
  simp only [partialsOf, List.mem_filter, List.mem_map, List.mem_range'_1, Prod.mk.injEq,
    Bool.not_eq_true', List.isEmpty_eq_false_iff]
  constructor
  · rintro ⟨⟨dot, ⟨hpos, hlt⟩, rfl, rfl⟩, hne⟩
    exact ⟨dot, rfl, rfl, hne, by omega, by omega, by omega⟩
  · rintro ⟨dot, rfl, rfl, hne, hpos, hlt, hle⟩
    exact ⟨⟨dot, by omega, rfl, rfl⟩, hne⟩

/-- An entry of a cell is one of a partial match of some rule. -/
theorem mem_partials_of_splits? {c : Chart} {s : Span} {rule : Rule} {dot : Nat}
    {places : List Nat} (h : (cellOver g tokens c s).splits? rule dot = some places) :
    ∃ rule' ∈ g.rules, ((rule.id, dot), places) ∈
      c.partialsOf (c.closedNodes g tokens s).1 s rule' := by
  rw [Cell.splits?, partials_cellOver] at h
  exact List.mem_flatMap.1 (mem_of_lookup_eq_some h)

theorem splitsInside_cellOver (c : Chart) {s : Span} (hs : s.start < s.stop) {rule : Rule}
    {dot split : Nat} {places : List Nat}
    (h : (cellOver g tokens c s).splits? rule dot = some places) (hsplit : split ∈ places) :
    s.start ≤ split ∧ split < s.stop := by
  obtain ⟨rule', -, hmem⟩ := mem_partials_of_splits? g tokens h
  obtain ⟨dot', -, rfl, -⟩ := mem_partialsOf_iff.1 hmem
  exact newSplits_bounds c _ hs hsplit

theorem upTo_splitsInside (width : Nat) : (upTo g tokens width).SplitsInside := by
  intro rule dot s split h
  obtain ⟨places, hplaces, hsplit⟩ := mem_splits.1 h
  rw [splits?, cell_upTo] at hplaces
  split at hplaces
  · rename_i hs
    exact splitsInside_cellOver g tokens _ hs.1.1 hplaces hsplit
  · cases hplaces

theorem upTo_agree {width width' bound : Nat} (h : bound ≤ width + 1) (h' : bound ≤ width' + 1) :
    AgreeBelow bound (upTo g tokens width) (upTo g tokens width') := by
  intro s hs
  have hle : s.width ≤ width := by omega
  have hle' : s.width ≤ width' := by omega
  simp only [cell_upTo, hle, hle']

/-- All spans up to some width have been analysed, and each cell is what the chart itself makes
of its span. -/
def Grown (width : Nat) (c : Chart) : Prop :=
  ∀ s : Span, c.cell s =
    if s.InSentence tokens.length ∧ s.width ≤ width then cellOver g tokens c s else {}

theorem grown_upTo (width : Nat) : Grown g tokens width (upTo g tokens width) := by
  intro s
  rw [cell_upTo]
  split
  · rename_i hs
    exact cellOver_congr g tokens (upTo_splitsInside g tokens _)
      (upTo_agree g tokens (by omega) (by omega))
  · rfl

end Growth

end Chart

end Readings
