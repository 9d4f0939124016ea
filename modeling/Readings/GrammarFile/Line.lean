import Readings.GrammarFile.Token
import Readings.Text.Pieces

/-!
Lines of a grammar file. A rule line `NP = Det N | "it"` gives the alternatives of a category, a
lexicon line `N : dog "hot dog"` gives the words of one.
-/

namespace Readings.GrammarFile

/-- What a category may be expanded to. -/
inductive Item where
  | category (name : String)
  /-- A quoted word stands for itself. -/
  | literal (word : String)
  deriving DecidableEq, Inhabited

def Item.name : Item → String
  | category name => name
  | literal word => word

inductive Line where
  | rule (head : String) (alternatives : List (List Item))
  | words (category : String) (words : List String)
  deriving DecidableEq, Inhabited

namespace Line

def item : Token → Except Cause Item
  | .equals | .colon => .error .unexpectedSeparator
  | .bar => .error .unsplitAlternatives
  | .name text => .ok (.category text)
  | .quoted text => .ok (.literal text)

def alternative (tokens : List Token) : Except Cause (List Item) :=
  if tokens.isEmpty then .error .emptyAlternative else tokens.mapM item

def word : Token → Except Cause String
  | .equals | .colon => .error .unexpectedSeparator
  | .bar => .error .unexpectedBar
  | .name text | .quoted text => .ok text

def wordList (tokens : List Token) : Except Cause (List String) :=
  if tokens.isEmpty then .error .emptyAlternative else tokens.mapM word

/-- Reads the tokens of a line; the first fault from the left is reported. -/
def ofTokens : List Token → Except Cause Line
  | [] => .error .unexpectedBlankLine
  | .name head :: .equals :: rest => rule head <$> (Text.pieces .bar rest).mapM alternative
  | .name head :: .colon :: rest => words head <$> wordList rest
  | .name _ :: _ => .error .missingSeparator
  | _ => .error .missingCategory

def parse (line : List Char) : Except Cause Line := Token.scan line >>= ofTokens

/-- A line that holds something: it is not blank and not a comment. -/
def isMeaningful (line : List Char) : Bool :=
  match line.dropWhile Text.isBlank with
  | [] => false
  | c :: _ => c != ';'

def items : Line → List Item
  | rule _ alternatives => alternatives.flatten
  | words _ _ => []

/-- The names that a line makes usable: the head of a rule and the words quoted in it, or the
category of words. -/
def defines : Line → List String
  | rule head alternatives =>
    head :: alternatives.flatten.filterMap fun | .literal w => some w | .category _ => none
  | words category _ => [category]

/-- The names that a line uses without quotes. -/
def uses (line : Line) : List String :=
  line.items.filterMap fun | .category name => some name | .literal _ => none

/-- What a line declares. A quoted word is a lexical category of its own, with itself as its only
word. -/
def declarations : Line → List Grammar.Declaration
  | rule head alternatives => alternatives.flatMap fun alternative ↦
    alternative.filterMap (fun | .literal w => some (.word w w) | .category _ => none) ++
      [.rule head (alternative.map Item.name)]
  | words category ws => [.words category ws]

end Line

end Readings.GrammarFile
