/-!
Quoted text: a text between double quotes, with escapes for the quote itself, the backslash, and
the characters that cannot be seen.
-/

namespace Readings.Text

/-- The digits of a number in base 16. -/
def hexDigits (n : Nat) : String := String.ofList (Nat.toDigits 16 n)

/-- How a character is written between double quotes. Control characters and combining marks
without a short escape are written by their number. -/
def escape (c : Char) : String :=
  let n := c.toNat
  if c = '"' then "\\\""
  else if c = '\\' then "\\\\"
  else if c = '\t' then "\\t"
  else if c = '\n' then "\\n"
  else if c = '\r' then "\\r"
  else if n = 0 then "\\0"
  else if n < 0x20 || (0x7F ≤ n && n < 0xA0) || (0x300 ≤ n && n < 0x370) then
    "\\u\x7b" ++ hexDigits n ++ "\x7d"
  else c.toString

def quote (s : String) : String := "\"" ++ String.join (s.toList.map escape) ++ "\""

end Readings.Text
