import Readings.Text.Pieces

/-!
Lines of a text. A line ends at a line feed, and one carriage return directly before the line feed
is not part of the line. Nothing else ends a line, so what follows the last line feed is a line of
its own unless it is empty. The definitions serve characters and bytes alike.
-/

namespace Readings.Text

/-- A line that ends at a line feed loses one carriage return at its end. -/
def chop {α : Type} [DecidableEq α] (cr : α) (line : List α) : List α :=
  if line.getLast? = some cr then line.dropLast else line

/-- The lines of a text; `feed` ends a line and `cr` may stand before it. -/
def splitLines {α : Type} [DecidableEq α] (feed cr : α) (text : List α) : List (List α) :=
  let ps := pieces feed text
  ps.dropLast.map (chop cr) ++ ps.getLast?.toList.filter (· ≠ [])

def lines (text : List Char) : List (List Char) := splitLines '\n' '\r' text

/-- Lines are numbered from 1 by the lines before them, each with its line feed. A line ends at a line
feed or at the end of the text. -/
inductive IsLine : List Char → Nat → List Char → Prop
  | ended {before : List (List Char)} {line after : List Char} (noFeed : ∀ l ∈ before, '\n' ∉ l)
      (whole : '\n' ∉ line) : IsLine (before.flatMap (· ++ ['\n']) ++ (line ++ '\n' :: after))
        (before.length + 1) (chop '\r' line)
  | last {before : List (List Char)} {line : List Char} (noFeed : ∀ l ∈ before, '\n' ∉ l)
      (whole : '\n' ∉ line) (nonempty : line ≠ []) :
      IsLine (before.flatMap (· ++ ['\n']) ++ line) (before.length + 1) line

/-- The text consists of these lines. Each ends at a line feed, the last one also at the end of the
text if it is not empty. -/
inductive Lined : List Char → List (List Char) → Prop
  | closed {ls : List (List Char)} (noFeed : ∀ l ∈ ls, '\n' ∉ l) :
      Lined (ls.flatMap (· ++ ['\n'])) ls
  | unclosed {ls : List (List Char)} {last : List Char} (noFeed : ∀ l ∈ ls, '\n' ∉ l)
      (whole : '\n' ∉ last) (nonempty : last ≠ []) :
      Lined (ls.flatMap (· ++ ['\n']) ++ last) (ls ++ [last])

/-- The lines of a file, each read as UTF-8; `none` stands for a line that is not UTF-8. -/
def linesOfBytes (bytes : ByteArray) : List (Option (List Char)) :=
  (splitLines 0x0A 0x0D bytes.toList).map fun line ↦
    (String.fromUTF8? ⟨line.toArray⟩).map String.toList

end Readings.Text
