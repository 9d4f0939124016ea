import Readings.GrammarFile.Error
import Readings.Text.Blank

/-!
Tokens of a line of a grammar file: `=`, `:`, `|`, quoted words and names. Blanks outside quotes
separate names and mean nothing else; a quoted word runs to the next quote and knows no escapes.
-/

namespace Readings.GrammarFile

inductive Token where
  | equals
  | colon
  | bar
  | name (text : String)
  | quoted (text : String)
  deriving DecidableEq, Inhabited

namespace Token

/-- A name runs up to the first such character. -/
def isDelimiter (c : Char) : Bool :=
  Text.isBlank c || c == '=' || c == ':' || c == '|' || c == '"'

/-- The tokens of a line. The only fault is a quote that is not closed. -/
def scan (line : List Char) : Except Cause (List Token) :=
  match line with
  | [] => .ok []
  | c :: rest =>
    if c = '=' then (equals :: ·) <$> scan rest
    else if c = ':' then (colon :: ·) <$> scan rest
    else if c = '|' then (bar :: ·) <$> scan rest
    else if c = '"' then
      match _h : rest.dropWhile (· ≠ '"') with
      | [] => .error .unmatchedQuote
      | _ :: rest' => (quoted (String.ofList (rest.takeWhile (· ≠ '"'))) :: ·) <$> scan rest'
    else if Text.isBlank c then scan rest
    else
      (name (String.ofList (c :: rest.takeWhile (!isDelimiter ·))) :: ·) <$>
        scan (rest.dropWhile (!isDelimiter ·))
termination_by line.length
decreasing_by
  all_goals simp only [List.length_cons]
  · omega
  · omega
  · omega
  · have := (List.dropWhile_suffix (l := rest) (fun x ↦ decide (x ≠ '"'))).length_le
    rw [_h] at this
    simp only [List.length_cons] at this
    omega
  · omega
  · exact Nat.lt_succ_of_le (List.dropWhile_suffix _).length_le

def written : Token → List Char
  | equals => ['=']
  | colon => [':']
  | bar => ['|']
  | name text => text.toList
  | quoted text => '"' :: text.toList ++ ['"']

end Token

end Readings.GrammarFile
