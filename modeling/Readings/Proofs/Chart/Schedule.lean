import Readings.Proofs.Chart.Steps

/-!
The cells of one width do not depend on each other: in whatever order they are filled, and whether
or not each is put into the chart before the next is filled, the same cells come out and the same
chart.
-/

namespace Readings.Chart

/-- Fills the cells over some spans one after another, each from all that the chart holds by then.
Gives the cells in the order of filling and the chart that they were put into. -/
def fillEach (g : Grammar) (tokens : List String) : List Span → Chart → List (Span × Cell) × Chart
  | [], c => ([], c)
  | s :: spans, c =>
    let cell := cellOver g tokens c s
    let (cells, c) := fillEach g tokens spans (c.insert s cell)
    ((s, cell) :: cells, c)

/-- The charts hold the same, in whatever order it was put into them. -/
structure Same (c c' : Chart) : Prop where
  cells : c.cells.Equiv c'.cells
  node? : ∀ k, c.node? k = c'.node? k
  splits? : ∀ rule dot s, c.splits? rule dot s = c'.splits? rule dot s
  steps : c.steps = c'.steps

theorem Same.of_getElem? {c c' : Chart} (hcells : ∀ s : Span, c.cells[s]? = c'.cells[s]?)
    (hsteps : c.steps = c'.steps) : c.Same c' := by
  have hcell (s : Span) : c.cell s = c'.cell s := by rw [cell, cell, hcells]
  constructor
  · exact .of_forall_getElem?_eq hcells
  · intro k
    rw [Chart.node?, Chart.node?, hcell]
  · intro rule dot s
    rw [Chart.splits?, Chart.splits?, hcell]
  · exact hsteps

theorem AgreeBelow.insert {width : Nat} {c c' : Chart} (h : AgreeBelow width c c') {s : Span}
    (hs : width ≤ s.width) (cell : Cell) : AgreeBelow width c (c'.insert s cell) := by
  intro t ht
  have hne : s ≠ t := by
    rintro rfl
    exact Nat.not_lt.2 hs ht
  rw [cell_insert, if_neg hne]
  exact h t ht

variable (g : Grammar) (tokens : List String)

theorem fillEach_eq {width : Nat} {c c' : Chart} {spans : List Span} (hc : c.SplitsInside)
    (h : AgreeBelow width c c') (hspans : ∀ s ∈ spans, s.width = width) :
    fillEach g tokens spans c' =
      (spans.map fun s ↦ (s, cellOver g tokens c s),
        (spans.map fun s ↦ (s, cellOver g tokens c s)).foldl (fun c p ↦ c.insert p.1 p.2) c') := by
  induction spans generalizing c' with
  | nil => rfl
  | cons s spans ih =>
    -- what has been put in meanwhile is as wide as `s`, so filling `s` does not see it
    obtain ⟨hs, hspans⟩ := List.forall_mem_cons.1 hspans
    have hcell : cellOver g tokens c' s = cellOver g tokens c s := by
      subst hs
      exact (cellOver_congr g tokens hc h).symm
    rw [fillEach, hcell, ih (h.insert (Nat.le_of_eq hs.symm) _) hspans]
    rfl

/-- The spans of a width may be taken in any order, one at a time: each gets the cell that it gets
when all are filled from the chart of the narrower widths, and the chart becomes the same. -/
theorem fillEach_in_any_order (width : Nat) (order : List Span)
    (h : order.Perm (Span.ofSentenceWidth tokens.length (width + 1))) :
    (fillEach g tokens order (upTo g tokens width)).1 =
        order.map (fun s ↦ (s, cellOver g tokens (upTo g tokens width) s)) ∧
      (fillEach g tokens order (upTo g tokens width)).2.Same
        (extend g tokens (upTo g tokens width) (width + 1)) := by
  have hwidth : ∀ s ∈ order, s.width = width + 1 := by
    intro s hs
    have hstop := (Span.mem_ofSentenceWidth.1 (h.mem_iff.1 hs)).1
    rw [Span.width]
    omega
  rw [fillEach_eq g tokens (upTo_splitsInside g tokens width) (fun _ _ ↦ rfl) hwidth]
  refine ⟨rfl, .of_getElem? (fun s ↦ ?_) ?_⟩
  · rw [extend, getElem?_foldl_insert, getElem?_foldl_insert]
    simp only [h.mem_iff]
  · rw [extend, steps_foldl_insert, steps_foldl_insert, ((h.map _).map _).sum_eq]

theorem fillEach_in_any_order_looping :
    let c := upTo Grammar.looping ["x", "x", "x"] 1
    let order : List Span := [⟨1, 3⟩, ⟨0, 2⟩]
    order.Perm (Span.ofSentenceWidth 3 2) ∧
      (fillEach Grammar.looping ["x", "x", "x"] order c).1 =
        order.map (fun s ↦ (s, cellOver Grammar.looping ["x", "x", "x"] c s)) ∧
      (fillEach Grammar.looping ["x", "x", "x"] order c).2.Same
        (extend Grammar.looping ["x", "x", "x"] c 2) :=
  ⟨by decide, fillEach_in_any_order Grammar.looping ["x", "x", "x"] 1 _ (by decide)⟩

end Readings.Chart
