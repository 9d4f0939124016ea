import Readings.Grammar.Draft

/-!
What can be wrong with a grammar file, where, and how it is reported.
-/

namespace Readings.GrammarFile

inductive ReadError where
  | notFound
  /-- The bytes are not UTF-8. -/
  | invalidText
  | other (message : String)
  deriving DecidableEq, Inhabited

def ReadError.message : ReadError → String
  | notFound => "No such file or directory (os error 2)"
  | invalidText => "stream did not contain valid UTF-8"
  | other message => message

inductive Cause where
  /-- The category is not followed by `=` or `:`. -/
  | missingSeparator
  /-- There is a second `=` or `:`. -/
  | unexpectedSeparator
  /-- The line begins with something other than a name. -/
  | missingCategory
  | unmatchedQuote
  /-- Nothing stands after the separator or between two bars. -/
  | emptyAlternative
  /-- A bar stands between words. -/
  | unexpectedBar
  /-- A rule uses a name that nothing defines. -/
  | undefinedName (name : String)
  /-- Without a rule there is no start symbol. -/
  | noRules
  | invalidGrammar (error : Grammar.BuildError)
  /-- An alternative was handed on with a bar in it, which no file can bring about. -/
  | unsplitAlternatives
  /-- A line without tokens was handed on, which no file can bring about. -/
  | unexpectedBlankLine
  | unreadable (error : ReadError)
  deriving DecidableEq, Inhabited

def Cause.message : Cause → String
  | missingSeparator => "Expected `=` or `:` after the category"
  | unexpectedSeparator => "Unexpected `=` or `:` encountered"
  | missingCategory => "Tried to define something other than a category"
  | unmatchedQuote => "Unmatched quotes"
  | emptyAlternative => "Empty alternative"
  | unexpectedBar => "`|` is not allowed in a lexicon line"
  | undefinedName name => s!"Could not find definition for `{name}`"
  | noRules => "File defines no rules"
  | invalidGrammar error => s!"Invalid grammar: {error.message}"
  | unsplitAlternatives =>
    "Rewrite was not fully split (this is a problem with the loader, not the grammar)"
  | unexpectedBlankLine =>
    "Blank line encountered in rule parser (this is a problem with the loader, not the grammar)"
  | unreadable error => s!"File error: {error.message}"

/-- A line of a file, counted from 1; line 0 is the file as a whole. -/
structure Location where
  file : String
  line : Nat
  deriving DecidableEq, Inhabited

instance : ToString Location :=
  ⟨fun l ↦ if l.line = 0 then l.file else s!"{l.file}:{l.line}"⟩

structure Error where
  location : Location
  cause : Cause
  deriving DecidableEq, Inhabited

namespace Error

instance : ToString Error := ⟨fun e ↦ s!"[{e.location}]  {e.cause.message}"⟩

def highlighted (e : Error) : String :=
  s!"\x1b[31;49;1m[{e.location}]\x1b[39;49;1m  {e.cause.message}\x1b[0m"

end Error

end Readings.GrammarFile
