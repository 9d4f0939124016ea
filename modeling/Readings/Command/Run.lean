import Readings.Command.Arguments
import Readings.Forest.Counting
import Readings.GrammarFile.Load
import Readings.Meaning
import Readings.Text.Blank

/-!
What the command does: it loads a grammar file and either analyses a sentence and lists its
readings, or generates sentences at random. The outcome is a function of the arguments, the content
of the file and the random choices.
-/

namespace Readings.Command

structure Outcome where
  exit : Nat
  stdout : String
  stderr : String
  deriving DecidableEq, Inhabited

namespace Outcome

def unlines (lines : List String) : String := String.join (lines.map (· ++ "\n"))

def success (lines : List String) : Outcome := ⟨0, unlines lines, ""⟩

/-- The run fails after `lines` have been printed. -/
def failure (lines errors : List String) : Outcome := ⟨1, unlines lines, unlines errors⟩

/-- The command was not used as it is meant to be. -/
def misuse (e : UsageError) : Outcome := ⟨2, "", unlines ["error: " ++ e.message]⟩

end Outcome

namespace Arguments

/-- The tokens of the sentence. A single argument may hold several words. -/
def tokens (a : Arguments) : List String := a.words.flatMap Text.words

/-- The budget of the enumeration. A time limit of zero has passed before any work is done; other
limits are taken to be far away. -/
def budget (a : Arguments) : Budget := ⟨a.maxSteps, a.timeout == some 0⟩

end Arguments

def analyse (g : Grammar) (start : String) (tokens : List String) (b : Budget) : Outcome :=
  match enumerate g start tokens b with
  | .error e => .failure [] [e.message]
  | .ok f => .success <| s!"{f.readingCount start} reading(s)" :: (f.readings start).map toString

/-- The lines for a tree with its value. -/
def readingLines (r : Reading String) : List String :=
  [toString r.tree, match r.value with
    | .ok value => "  = " ++ value
    | .error e => "  ! " ++ e.message]

/-- Lists the trees of a sentence, each with the words read back from it. -/
def echo (g : Grammar) (start : String) (tokens : List String) (b : Budget) : Outcome :=
  match interpret g start tokens .echo b with
  | .error e => .failure [] [e.message]
  | .ok rs => .success <| s!"{rs.length} reading(s)" :: rs.flatMap readingLines

/-- Generates sentences, up to the first failure. The lines found so far come in backwards. -/
def generate {σ : Type} (g : Generator) (c : Chooser σ) (start : String) :
    (amount : Nat) → (lines : List String) → StateM σ Outcome
  | 0, lines => return .success lines.reverse
  | amount + 1, lines => do
    match ← (g.sentence c start).run with
    | .ok words => generate g c start amount (" ".intercalate words :: lines)
    | .error e => return .failure lines.reverse [e.message]

/-- The command with its arguments, the content of the grammar file or the error met instead of it,
and a way to make random choices. -/
def execute {σ : Type} (a : Arguments)
    (content : Except GrammarFile.ReadError ByteArray) (c : Chooser σ) : StateM σ Outcome :=
  match GrammarFile.ofContent a.file content with
  | .error errors => return .failure [] (errors.map (·.highlighted))
  | .ok loaded =>
    let g := loaded.grammar
    let start := a.start.getD g.start
    match a.generate with
    | some amount => generate (Generator.ofGrammar g a.depth) c start amount []
    | none => return (if a.echo then echo else analyse) g start a.tokens a.budget

/-- The command as it is called; `contentOf` is asked for the content of the grammar file. -/
def run {σ : Type} (arguments : List String)
    (contentOf : String → Except GrammarFile.ReadError ByteArray) (c : Chooser σ) :
    StateM σ Outcome :=
  match Arguments.ofList arguments with
  | .error e => return .misuse e
  | .ok a => execute a (contentOf a.file) c

end Readings.Command
