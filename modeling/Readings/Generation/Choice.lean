/-!
Choosing at random. A chooser picks one of `n + 1` things and may be anything that keeps a state;
what is generated with it is a function of the choices. The choosers that are run draw numbers of
32 bits and scale them down, and draw again as long as the number falls into the part of the range
that would make some choices more likely than others.
-/

namespace Readings

/-- A way to choose among `n + 1` things, with a state that every choice may change. -/
structure Chooser (σ : Type) where
  choose : (n : Nat) → StateM σ (Fin (n + 1))

/-- One of the elements of a list that has at least one. -/
def Chooser.pick {σ α : Type} (c : Chooser σ) (first : α) (rest : List α) : StateM σ α := do
  let i ← c.choose rest.length
  return (first :: rest)[i]

inductive Source where
  /-- A linear congruential sequence, given by the number before its first. -/
  | congruential (last : UInt32)
  /-- Numbers given in advance, followed by zeros. -/
  | listed (numbers : List UInt32)
  deriving DecidableEq, Inhabited

namespace Source

def draw : Source → UInt32 × Source
  | congruential last =>
    let next := last * 1664525 + 1013904223
    (next, congruential next)
  | listed [] => (0, listed [])
  | listed (number :: rest) => (number, listed rest)

/-- So many draws are sure to give a zero: a congruential sequence runs through all numbers before
it repeats itself. -/
def untilZero : Source → Nat
  | congruential _ => UInt32.size
  | listed numbers => numbers.length + 1

end Source

/-- A source, and how many numbers have been drawn from it. -/
structure Draws where
  source : Source
  used : Nat := 0
  deriving DecidableEq, Inhabited

namespace Draws

def next (d : Draws) : UInt32 × Draws :=
  let (number, source) := d.source.draw
  (number, ⟨source, d.used + 1⟩)

/-- The greatest remainder that is accepted when one of `n` things is chosen: `n` is shifted until
it fills 32 bits, so that every choice owns the same number of remainders. -/
def zone (n : Nat) : Nat := (n <<< (31 - n.log2)) - 1

/-- A number scaled down from 32 bits to the numbers below `n`. -/
def scale (number : UInt32) (n : Nat) : Fin (n + 1) :=
  ⟨number.toNat * (n + 1) / UInt32.size, by
    have := number.toNat_lt
    exact Nat.div_lt_of_lt_mul (Nat.mul_lt_mul_of_pos_right this (by omega))⟩

/-- The product of the number and the range leaves a remainder within the zone. -/
def accepts (number : UInt32) (n : Nat) : Bool := number.toNat * n % UInt32.size ≤ zone n

/-- Draws numbers until one is accepted, at most `attempts` of them. -/
def chooseWithin (n : Nat) : (attempts : Nat) → StateM Draws (Fin (n + 1))
  | 0 => return 0
  | attempts + 1 => do
    let number ← modifyGet next
    if accepts number (n + 1) then return scale number n else chooseWithin n attempts

/-- Equally likely choices. A zero is always accepted, so the attempts suffice. -/
def chooser : Chooser Draws where
  choose n := do chooseWithin n (← get).source.untilZero

theorem accepts_zero (n : Nat) : accepts 0 n = true := by simp [accepts]

end Draws

end Readings
