import Readings.Forest.Cycle

/-!
Walks down a forest. Counting and expanding go the same way through a forest: what is found below a
constituent is kept unless the constituent lies on a unary cycle, and only constituents on unary
cycles are kept on the path.
-/

namespace Readings.Forest

/-- Runs through a list from left to right and threads a state along. -/
def thread {σ β γ : Type} (step : β → σ → γ × σ) : List β → σ → List γ × σ
  | [], s => ([], s)
  | b :: bs, s =>
    let (c, s) := step b s
    let (cs, s) := thread step bs s
    (c :: cs, s)

/-- What a walk carries along: the cyclic constituents that it is inside of, the innermost first,
and what has been found below others by then. -/
structure Walk (α : Type) where
  path : List Constituent := []
  memo : Std.HashMap Constituent α := {}

namespace Walk

variable {α : Type}

def enter (w : Walk α) (k : Constituent) : Walk α := { w with path := k :: w.path }

def leave (w : Walk α) : Walk α := { w with path := w.path.tail }

def keep (w : Walk α) (k : Constituent) (value : α) : Walk α :=
  { w with memo := w.memo.insert k value }

end Walk

end Readings.Forest
