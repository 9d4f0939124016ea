import Readings.GrammarFile.Line

/-!
What a line of a grammar file looks like, said without reading it: which characters spell which
tokens, which tokens make a line, and which fault tokens have that do not make one. Of several
faults the leftmost counts.
-/

namespace Readings.GrammarFile

namespace Token

/-- A name is not empty and holds nothing that would end it; quoted text holds no quote. -/
def IsProper : Token → Prop
  | name text => text.toList ≠ [] ∧ ∀ c ∈ text.toList, ¬ isDelimiter c
  | quoted text => '"' ∉ text.toList
  | equals | colon | bar => True

/-- A name goes on until something ends it. -/
def EndsBefore : Token → List Char → Prop
  | name _, rest => ∀ c ∈ rest.head?, isDelimiter c
  | _, _ => True

/-- The characters are those of the tokens in order, with blanks between tokens as one likes. -/
inductive Spells : List Char → List Token → Prop
  | nil : Spells [] []
  | blank {c : Char} {line : List Char} {ts : List Token} (isBlank : Text.isBlank c)
      (tail : Spells line ts) : Spells (c :: line) ts
  | token {t : Token} {line : List Char} {ts : List Token} (proper : t.IsProper)
      (ends : t.EndsBefore line) (tail : Spells line ts) : Spells (t.written ++ line) (t :: ts)

/-- The word that a token stands for in a lexicon line. -/
def word? : Token → Option String
  | name text | quoted text => some text
  | equals | colon | bar => none

end Token

def Item.token : Item → Token
  | category name => .name name
  | literal word => .quoted word

namespace Line

inductive Form : List Token → Line → Prop
  | rule {head : String} {alternatives : List (List Item)} (some : alternatives ≠ [])
      (nonempty : ∀ a ∈ alternatives, a ≠ []) :
      Form (.name head :: .equals ::
        [Token.bar].intercalate (alternatives.map (·.map Item.token))) (.rule head alternatives)
  | words {category : String} {tokens : List Token} {ws : List String} (nonempty : tokens ≠ [])
      (each : tokens.map Token.word? = ws.map some) :
      Form (.name category :: .colon :: tokens) (.words category ws)

inductive AlternativeFault : List Token → Cause → Prop
  | empty : AlternativeFault [] .emptyAlternative
  | separator {tokens : List Token} (mem : .equals ∈ tokens ∨ .colon ∈ tokens) :
      AlternativeFault tokens .unexpectedSeparator

inductive WordFault : Token → Cause → Prop
  | equals : WordFault .equals .unexpectedSeparator
  | colon : WordFault .colon .unexpectedSeparator
  | bar : WordFault .bar .unexpectedBar

inductive Fault : List Token → Cause → Prop
  | category {t : Token} {rest : List Token} (other : ∀ text, t ≠ .name text) :
      Fault (t :: rest) .missingCategory
  | separator {head : String} {rest : List Token} (equals : rest.head? ≠ some .equals)
      (colon : rest.head? ≠ some .colon) : Fault (.name head :: rest) .missingSeparator
  | alternative {head : String} {before after : List (List Token)} {a : List Token} {cause : Cause}
      (split : ∀ b ∈ before ++ a :: after, .bar ∉ b)
      (sound : ∀ b ∈ before, ∀ c, ¬ AlternativeFault b c) (fault : AlternativeFault a cause) :
      Fault (.name head :: .equals :: [Token.bar].intercalate (before ++ a :: after)) cause
  | noWords {category : String} : Fault [.name category, .colon] .emptyAlternative
  | word {category : String} {before after : List Token} {t : Token} {cause : Cause}
      (sound : ∀ b ∈ before, ∀ c, ¬ WordFault b c) (fault : WordFault t cause) :
      Fault (.name category :: .colon :: (before ++ t :: after)) cause

end Line

end Readings.GrammarFile
