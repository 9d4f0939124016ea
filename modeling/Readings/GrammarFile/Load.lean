import Readings.GrammarFile.Line
import Readings.Text.Lines

/-!
Loading a grammar from a file. Errors are reported in stages: first the faults of single lines,
one for each faulty line; then the uses of undefined names; then that there is no rule at all; then
what keeps the declarations from being a grammar. A later stage is reached only without errors of
the earlier ones.
-/

namespace Readings.GrammarFile

structure Definition where
  line : Line
  number : Nat
  deriving DecidableEq, Inhabited

/-- A grammar, and the lexicon lines whose category no rule uses. -/
structure Loaded where
  grammar : Grammar
  unused : List (Location × String)
  deriving Inhabited

/-- What one numbered line contributes: nothing, a definition or an error. A line that could not be
read as text is an error of the file as a whole. -/
def readLine (path : String) : Option (List Char) × Nat → Option (Except Error Definition)
  | (none, _) => some (.error ⟨⟨path, 0⟩, .unreadable .invalidText⟩)
  | (some text, number) =>
    if Line.isMeaningful text then
      some <| match Line.parse text with
        | .ok line => .ok ⟨line, number⟩
        | .error cause => .error ⟨⟨path, number⟩, cause⟩
    else none

def readLines (path : String) (texts : List (Option (List Char))) :
    List (Except Error Definition) :=
  (texts.zipIdx 1).filterMap (readLine path)

/-- One error for each use of a name that no line defines. -/
def undefinedNames (path : String) (definitions : List Definition) : List Error :=
  let defined := definitions.flatMap (·.line.defines)
  definitions.flatMap fun d ↦
    (d.line.uses.filter (· ∉ defined)).map fun name ↦ ⟨⟨path, d.number⟩, .undefinedName name⟩

def unusedCategories (path : String) (definitions : List Definition) :
    List (Location × String) :=
  let used := definitions.flatMap (·.line.uses)
  definitions.filterMap fun d ↦
    match d.line with
    | .rule _ _ => none
    | .words category _ => if category ∈ used then none else some (⟨path, d.number⟩, category)

def start? (definitions : List Definition) : Option String :=
  definitions.findSome? fun d ↦
    match d.line with
    | .rule head _ => some head
    | .words _ _ => none

def resolve (path : String) (definitions : List Definition) : Except (List Error) Loaded :=
  match undefinedNames path definitions with
  | [] =>
    match start? definitions with
    | none => .error [⟨⟨path, 0⟩, .noRules⟩]
    | some start =>
      let draft := Grammar.Draft.ofDeclarations start (definitions.flatMap (·.line.declarations))
      match draft.build with
      | .ok grammar => .ok ⟨grammar, unusedCategories path definitions⟩
      | .error error => .error [⟨⟨path, 0⟩, .invalidGrammar error⟩]
  | errors => .error errors

def ofLines (path : String) (texts : List (Option (List Char))) : Except (List Error) Loaded :=
  let read := readLines path texts
  match read.filterMap fun | .error e => some e | .ok _ => none with
  | [] => resolve path (read.filterMap fun | .ok d => some d | .error _ => none)
  | errors => .error errors

def ofText (path text : String) : Except (List Error) Loaded :=
  ofLines path ((Text.lines text.toList).map some)

/-- Loads a file from its bytes, or from the error that was met instead of them. -/
def ofContent (path : String) : Except ReadError ByteArray → Except (List Error) Loaded
  | .ok bytes => ofLines path (Text.linesOfBytes bytes)
  | .error e => .error [⟨⟨path, 0⟩, .unreadable e⟩]

end Readings.GrammarFile
