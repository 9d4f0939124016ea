/-!
Spans of a sentence: half-open ranges of token positions, ordered by where they start and then by
where they stop. The spans of a sentence of `n` tokens are listed by width and then by start, the
order in which they are analysed.
-/

namespace Readings

/-- Sequences of numbers in the order of a dictionary. -/
def lexLe : List Nat → List Nat → Bool
  | [], _ => true
  | _ :: _, [] => false
  | m :: ms, n :: ns => decide (m < n) || (m == n && lexLe ms ns)

structure Span where
  start : Nat
  stop : Nat
  deriving DecidableEq, Hashable, Inhabited

namespace Span

def width (s : Span) : Nat := s.stop - s.start

/-- The span of `width` tokens that begins at `start`. -/
def ofWidth (start width : Nat) : Span := ⟨start, start + width⟩

/-- Two bounds enclose a span only if some position lies between them. -/
def ofBounds? (start stop : Nat) : Option Span :=
  if start < stop then some ⟨start, stop⟩ else none

def bounds (s : Span) : List Nat := [s.start, s.stop]

def le (s t : Span) : Bool := lexLe s.bounds t.bounds

instance : ToString Span := ⟨fun s ↦ s!"[{s.start}, {s.stop})"⟩

/-- The spans of `width` tokens in a sentence of `n` tokens, from left to right. -/
def ofSentenceWidth (n width : Nat) : List Span :=
  (List.range (n + 1 - width)).map (ofWidth · width)

/-- All spans of a sentence of `n` tokens, the narrow ones first. -/
def ofSentence (n : Nat) : List Span :=
  (List.range' 1 n).flatMap (ofSentenceWidth n)

@[simp] theorem width_ofWidth (start width : Nat) : (ofWidth start width).width = width := by
  simp [ofWidth, Span.width]

theorem mem_ofSentenceWidth {n width : Nat} {s : Span} :
    s ∈ ofSentenceWidth n width ↔ s.stop = s.start + width ∧ s.start < n + 1 - width := by
  simp only [ofSentenceWidth, List.mem_map, List.mem_range]
  constructor
  · rintro ⟨a, ha, rfl⟩
    exact ⟨rfl, ha⟩
  · rintro ⟨h, hs⟩
    exact ⟨s.start, hs, by cases s; simp_all [ofWidth]⟩

end Span

end Readings
