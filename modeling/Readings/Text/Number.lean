/-!
Numbers in decimal notation, with an optional sign.
-/

namespace Readings.Text

/-- The number that a sequence of decimal digits writes. There must be a digit. -/
def ofDigits? (digits : List Char) : Option Nat :=
  if !digits.isEmpty && digits.all Char.isDigit then
    some (digits.foldl (fun n c ↦ 10 * n + (c.toNat - '0'.toNat)) 0)
  else none

/-- A number without a sign or with a plus. -/
def natural? (s : String) : Option Nat :=
  match s.toList with
  | '+' :: digits => ofDigits? digits
  | digits => ofDigits? digits

def integer? (s : String) : Option Int :=
  match s.toList with
  | '-' :: digits => (ofDigits? digits).map fun n ↦ -(n : Int)
  | _ => (natural? s).map Int.ofNat

end Readings.Text
