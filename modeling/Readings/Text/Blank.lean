/-!
Blank characters: the characters with the Unicode property `White_Space`, and the words that they
separate.
-/

namespace Readings.Text

/-- The character has the Unicode property `White_Space`. -/
def isBlank (c : Char) : Bool :=
  let n := c.toNat
  (0x09 ≤ n && n ≤ 0x0D) || n == 0x20 || n == 0x85 || n == 0xA0 || n == 0x1680 ||
    (0x2000 ≤ n && n ≤ 0x200A) || n == 0x2028 || n == 0x2029 || n == 0x202F || n == 0x205F ||
    n == 0x3000

/-- The words of a text are its longest pieces without blanks. -/
def wordsOfChars (cs : List Char) : List String :=
  match cs with
  | [] => []
  | c :: rest =>
    if isBlank c then wordsOfChars rest
    else String.ofList (c :: rest.takeWhile (!isBlank ·)) ::
      wordsOfChars (rest.dropWhile (!isBlank ·))
termination_by cs.length
decreasing_by
  · simp
  · exact Nat.lt_succ_of_le (List.dropWhile_suffix _).length_le

def words (s : String) : List String := wordsOfChars s.toList

end Readings.Text
