import Readings.GrammarFile.Load

/-!
What loading a grammar file reports, said without loading it. The lines are read one by one, the
names that they use are looked up in all of them, and what they declare is built into a grammar; a
stage comes into play only when nothing was to be reported before it.
-/

namespace Readings.GrammarFile

namespace Line

/-- Nothing but blanks, or a comment. -/
inductive Skipped : List Char → Prop
  | blank {line : List Char} (blank : ∀ c ∈ line, Text.isBlank c) : Skipped line
  | comment {indent rest : List Char} (blank : ∀ c ∈ indent, Text.isBlank c) :
      Skipped (indent ++ ';' :: rest)

/-- The names that rules may use. Quotes make a literal in a rule only: in a lexicon line they do no
more than hold a word together. -/
inductive Defines : Line → String → Prop
  | head {name : String} {alternatives : List (List Item)} : Defines (.rule name alternatives) name
  | literal {head word : String} {alternatives : List (List Item)} {alternative : List Item}
      (mem : alternative ∈ alternatives) (item : .literal word ∈ alternative) :
      Defines (.rule head alternatives) word
  | category {name : String} {ws : List String} : Defines (.words name ws) name

def productions : Line → List Production
  | rule head alternatives => alternatives.map fun alternative ↦ ⟨head, alternative.map Item.name⟩
  | words _ _ => []

def entries : Line → List LexicalEntry
  | rule _ alternatives =>
    alternatives.flatten.filterMap fun | .literal w => some ⟨w, w⟩ | .category _ => none
  | words category ws => ws.map (⟨·, category⟩)

end Line

/-- The line with this number is not skipped, and this is what comes of reading it. -/
def Reads (text : List Char) (number : Nat) (read : Except Cause Line) : Prop :=
  ∃ line, Text.IsLine text number line ∧ ¬ Line.Skipped line ∧ Line.parse line = read

/-- The definitions of a text are what its lines say, in order. -/
structure Contains (text : List Char) (ds : List Definition) : Prop where
  increasing : ds.Pairwise (·.number < ·.number)
  mem_iff : ∀ d, d ∈ ds ↔ Reads text d.number (.ok d.line)

/-- The place of a name that a rule uses without quotes. -/
structure Use where
  line : Nat
  alternative : Nat
  position : Nat
  name : String

namespace Use

def Before (u v : Use) : Prop :=
  u.line < v.line ∨ u.line = v.line ∧ (u.alternative < v.alternative ∨
    u.alternative = v.alternative ∧ u.position < v.position)

def error (path : String) (u : Use) : Error := ⟨⟨path, u.line⟩, .undefinedName u.name⟩

/-- The name stands there. -/
def In (u : Use) (d : Definition) : Prop :=
  ∃ head alternatives alternative, d = ⟨.rule head alternatives, u.line⟩ ∧
    alternatives[u.alternative]? = some alternative ∧
      alternative[u.position]? = some (.category u.name)

def Undefined (u : Use) (ds : List Definition) : Prop :=
  (∃ d ∈ ds, u.In d) ∧ ∀ d ∈ ds, ¬ d.line.Defines u.name

end Use

/-- The start symbol is the head of the first rule line. -/
def Starts (ds : List Definition) (start : String) : Prop :=
  ∃ before alternatives number after, ds = before ++ ⟨.rule start alternatives, number⟩ :: after ∧
    ∀ d ∈ before, ∃ category ws, d.line = .words category ws

def draft (ds : List Definition) (start : String) : Grammar.Draft where
  start := start
  rules := ds.flatMap (·.line.productions)
  words := ds.flatMap (·.line.entries)

/-- What comes of definitions once every line is read. -/
structure Resolves (path : String) (ds : List Definition)
    (result : Except (List Error) Loaded) : Prop where
  undefined : (∃ u : Use, u.Undefined ds) → ∃ us : List Use,
    result = .error (us.map (·.error path)) ∧ us.Pairwise Use.Before ∧
      ∀ u, u ∈ us ↔ u.Undefined ds
  noRules : (∀ u : Use, ¬ u.Undefined ds) → (∀ d ∈ ds, ∃ category ws, d.line = .words category ws) →
    result = .error [⟨⟨path, 0⟩, .noRules⟩]
  invalid : (∀ u : Use, ¬ u.Undefined ds) → ∀ start, Starts ds start →
    ∀ e, (draft ds start).build = .error e → result = .error [⟨⟨path, 0⟩, .invalidGrammar e⟩]
  loaded : (∀ u : Use, ¬ u.Undefined ds) → ∀ start, Starts ds start →
    ∀ g, (draft ds start).build = .ok g → result = .ok ⟨g, unusedCategories path ds⟩

/-- What comes of a text: one error for each faulty line, or else what comes of its definitions. -/
structure Reports (path : String) (text : List Char)
    (result : Except (List Error) Loaded) : Prop where
  faults : (∃ number cause, Reads text number (.error cause)) → ∃ es, result = .error es ∧
    es.Pairwise (·.location.line < ·.location.line) ∧
      ∀ e, e ∈ es ↔ e.location.file = path ∧ Reads text e.location.line (.error e.cause)
  sound : (∀ number cause, ¬ Reads text number (.error cause)) →
    ∃ ds, Contains text ds ∧ Resolves path ds result

end Readings.GrammarFile
