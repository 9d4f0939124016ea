import Readings.Tree.Parse

/-!
Rows of spans that follow one another, and the tokens that they cover.
-/

namespace Readings.Span

/-- The part of a sequence that the span covers. -/
def slice {α : Type} (s : Span) (xs : List α) : List α := (xs.drop s.start).take s.width

variable {spans more : List Span} {s : Span} {start stop : Nat}

theorem tile_nil_iff : Tile [] start stop ↔ start = stop :=
  ⟨fun h ↦ by cases h; rfl, fun h ↦ h ▸ .nil⟩

theorem tile_cons_iff :
    Tile (s :: spans) start stop ↔ s.start = start ∧ s.start < s.stop ∧ Tile spans s.stop stop :=
  ⟨fun h ↦ by cases h with | cons hs ht => exact ⟨rfl, hs, ht⟩, fun ⟨h, hs, ht⟩ ↦ h ▸ .cons hs ht⟩

theorem tile_append_iff :
    Tile (spans ++ more) start stop ↔ ∃ mid, Tile spans start mid ∧ Tile more mid stop := by
  constructor
  · intro h
    induction spans generalizing start with
    | nil => exact ⟨start, .nil, h⟩
    | cons s spans ih =>
      obtain ⟨rfl, hs, ht⟩ := tile_cons_iff.1 h
      obtain ⟨mid, hl, hr⟩ := ih ht
      exact ⟨mid, .cons hs hl, hr⟩
  · rintro ⟨mid, hl, hr⟩
    exact hl.append hr

theorem tile_singleton_iff : Tile [s] start stop ↔ s = ⟨start, stop⟩ ∧ start < stop := by
  rw [tile_cons_iff, tile_nil_iff]
  constructor
  · rintro ⟨rfl, hs, rfl⟩
    exact ⟨rfl, hs⟩
  · rintro ⟨rfl, hs⟩
    exact ⟨rfl, hs, rfl⟩

theorem tile_concat_iff :
    Tile (spans ++ [s]) start stop ↔
      Tile spans start s.start ∧ s.start < s.stop ∧ s.stop = stop := by
  rw [tile_append_iff]
  constructor
  · rintro ⟨mid, hl, hr⟩
    obtain ⟨rfl, hs⟩ := tile_singleton_iff.1 hr
    exact ⟨hl, hs, rfl⟩
  · rintro ⟨hl, hs, rfl⟩
    exact ⟨s.start, hl, tile_singleton_iff.2 ⟨rfl, hs⟩⟩

theorem Tile.add_length_le (h : Tile spans start stop) : start + spans.length ≤ stop := by
  induction h with
  | nil => simp
  | cons hs _ ih =>
    rw [List.length_cons]
    omega

theorem Tile.start_lt_stop (h : Tile spans start stop) (hne : spans ≠ []) : start < stop := by
  have hlen := List.length_pos_iff.2 hne
  have hle := h.add_length_le
  omega

theorem Tile.bounds (h : Tile spans start stop) (hs : s ∈ spans) :
    start ≤ s.start ∧ s.start < s.stop ∧ s.stop ≤ stop := by
  obtain ⟨front, back, rfl⟩ := List.append_of_mem hs
  obtain ⟨mid, hfront, hback⟩ := tile_append_iff.1 h
  obtain ⟨rfl, hlt, htail⟩ := tile_cons_iff.1 hback
  exact ⟨hfront.le, hlt, htail.le⟩

/-- Each of two or more parts is narrower than the whole. -/
theorem Tile.width_lt (h : Tile spans start stop) (hlen : 2 ≤ spans.length) (hs : s ∈ spans) :
    s.width < stop - start := by
  obtain ⟨front, back, rfl⟩ := List.append_of_mem hs
  obtain ⟨mid, hl, hr⟩ := tile_append_iff.1 h
  obtain ⟨rfl, hs', ht⟩ := tile_cons_iff.1 hr
  have hl := hl.add_length_le
  have ht := ht.add_length_le
  simp only [List.length_append, List.length_cons] at hlen
  rw [width]
  omega

/-- A bound on where the parts stop is a bound on where the row does. -/
theorem Tile.stop_le {n : Nat} (h : Tile spans start stop) (hne : spans ≠ [])
    (hn : ∀ s ∈ spans, s.stop ≤ n) : stop ≤ n := by
  obtain ⟨front, last, rfl⟩ := (List.eq_nil_or_concat spans).resolve_left hne
  rw [List.concat_eq_append] at h hn
  obtain ⟨-, -, rfl⟩ := tile_concat_iff.1 h
  exact hn last (by simp)

/-- A row stops where its last part does. -/
theorem Tile.stop_eq (h : Tile spans start stop) :
    (spans.getLast?.map (·.stop)).getD start = stop := by
  rcases List.eq_nil_or_concat spans with rfl | ⟨front, last, rfl⟩
  · exact tile_nil_iff.1 h
  · rw [List.concat_eq_append] at h ⊢
    rw [List.getLast?_concat]
    exact (tile_concat_iff.1 h).2.2

/-- Where the parts of a row begin and end: the start of the row, then the stop of each part. -/
def boundaries (start : Nat) (spans : List Span) : List Nat := start :: spans.map (·.stop)

theorem Tile.boundaries_sorted (h : Tile spans start stop) :
    (boundaries start spans).Pairwise (· < ·) := by
  induction h with
  | nil => exact List.pairwise_singleton _ _
  | @cons s spans stop hs htail ih =>
    refine List.pairwise_cons.2 ⟨fun x hx ↦ ?_, ih⟩
    obtain ⟨t, ht, rfl⟩ := List.mem_map.1 hx
    rcases List.mem_cons.1 ht with rfl | ht
    · exact hs
    · obtain ⟨hle, hlt, -⟩ := htail.bounds ht
      omega

theorem Tile.le_of_mem_boundaries (h : Tile spans start stop) {x : Nat}
    (hx : x ∈ boundaries start spans) : x ≤ stop := by
  rcases List.mem_cons.1 hx with rfl | hx
  · exact h.le
  · obtain ⟨s, hs, rfl⟩ := List.mem_map.1 hx
    exact (h.bounds hs).2.2

/-- A row is determined by its boundaries. -/
theorem Tile.eq_of_boundaries {start' stop' : Nat} (h : Tile spans start stop)
    (h' : Tile more start' stop') (heq : boundaries start spans = boundaries start' more) :
    start = start' ∧ stop = stop' ∧ spans = more := by
  induction h generalizing start' more with
  | nil =>
    rw [boundaries, boundaries, List.map_nil, List.cons.injEq] at heq
    obtain ⟨rfl, hmore⟩ := heq
    obtain rfl := List.map_eq_nil_iff.1 hmore.symm
    exact ⟨rfl, tile_nil_iff.1 h', rfl⟩
  | @cons s spans stop hs htail ih =>
    cases h' with
    | nil => cases heq
    | @cons s' more stop' hs' htail' =>
      obtain ⟨start, mid⟩ := s
      obtain ⟨start', mid'⟩ := s'
      rw [boundaries, boundaries, List.cons.injEq] at heq
      obtain ⟨rfl, heq⟩ := heq
      obtain ⟨rfl, rfl, rfl⟩ := ih htail' heq
      exact ⟨rfl, rfl, rfl⟩

section Slice

variable {α : Type} (xs : List α)

theorem length_slice (hs : s.stop ≤ xs.length) : (s.slice xs).length = s.width := by
  rw [slice, List.length_take, List.length_drop]
  rw [width]
  omega

theorem getElem?_slice_zero (hs : 0 < s.width) : (s.slice xs)[0]? = xs[s.start]? := by
  rw [slice, List.getElem?_take_of_lt hs, List.getElem?_drop, Nat.add_zero]

theorem slice_append {a b c : Nat} (hab : a ≤ b) (hbc : b ≤ c) :
    slice ⟨a, b⟩ xs ++ slice ⟨b, c⟩ xs = slice ⟨a, c⟩ xs := by
  have hc : c - a = (b - a) + (c - b) := by omega
  have hb : b = a + (b - a) := by omega
  simp only [slice, width]
  rw [hc, List.take_add, List.drop_drop, ← hb]

theorem slice_ofWidth_one {i : Nat} {x : α} (h : xs[i]? = some x) :
    (ofWidth i 1).slice xs = [x] := by
  obtain ⟨hi, rfl⟩ := List.getElem?_eq_some_iff.1 h
  rw [slice, width_ofWidth, ofWidth, List.drop_eq_getElem_cons hi]
  rfl

theorem slice_whole : slice ⟨0, xs.length⟩ xs = xs := by
  simp [slice, width]

end Slice

end Readings.Span
