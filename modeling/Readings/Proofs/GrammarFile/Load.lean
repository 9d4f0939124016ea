import Mathlib.Data.List.TakeWhile
import Readings.GrammarFile.Report
import Readings.Proofs.Except
import Readings.Proofs.Grammar.Representation
import Readings.Proofs.GrammarFile.Use
import Readings.Proofs.Text

/-!
Loading reports in stages: every faulty line, or else every use of a name that nothing defines, or
else what keeps the file as a whole from being a grammar. What is reported of lines and uses stands
in their order, and each once.
-/

namespace Readings.GrammarFile

section Lines

theorem Line.isMeaningful_eq_false_iff {line : List Char} :
    isMeaningful line = false ↔ Skipped line := by
  constructor
  · intro h
    have hline := List.takeWhile_append_dropWhile (p := Text.isBlank) (l := line)
    have hblank : ∀ c ∈ line.takeWhile Text.isBlank, Text.isBlank c := fun _ ↦
      List.mem_takeWhile_imp
    rw [isMeaningful] at h
    split at h
    next hrest =>
      rw [hrest, List.append_nil] at hline
      rw [hline] at hblank
      exact .blank hblank
    next c rest hrest =>
      -- what is neither blank nor read begins with a semicolon
      obtain rfl : c = ';' := by simpa using h
      rw [← hline, hrest]
      exact .comment hblank
  · intro h
    cases h with
    | blank blank => rw [isMeaningful, List.dropWhile_eq_nil_iff.2 blank]
    | comment blank =>
      rw [isMeaningful, List.dropWhile_append_of_pos blank]
      rfl

/-- The line that something is said of. -/
def numberOf : Except Error Definition → Nat
  | .ok d => d.number
  | .error e => e.location.line

def located (path : String) (number : Nat) : Except Cause Line → Except Error Definition
  | .ok line => .ok ⟨line, number⟩
  | .error cause => .error ⟨⟨path, number⟩, cause⟩

theorem numberOf_located {path : String} {number : Nat} (read : Except Cause Line) :
    numberOf (located path number read) = number := by
  cases read <;> rfl

/-- What comes of a line, unless it is skipped. -/
def Line.read? (line : List Char) : Option (Except Cause Line) :=
  if isMeaningful line then some (parse line) else none

theorem readLine_eq (path : String) (line : List Char) (number : Nat) :
    readLine path (some line, number) = (Line.read? line).map (located path number) := by
  rw [readLine, Line.read?]
  split
  · cases Line.parse line <;> rfl
  · rfl

theorem readLine_eq_some_iff {path : String} {line : List Char} {number : Nat}
    {r : Except Error Definition} : readLine path (some line, number) = some r ↔
      ¬ Line.Skipped line ∧ located path number (Line.parse line) = r := by
  rw [← Line.isMeaningful_eq_false_iff, Bool.not_eq_false, readLine_eq, Line.read?]
  split <;> simp [*]

variable {path : String} {text : List Char}

theorem mem_readLines_iff {r : Except Error Definition} :
    r ∈ readLines path ((Text.lines text).map some) ↔
      ∃ number read, Reads text number read ∧ located path number read = r := by
  rw [readLines, List.zipIdx_map, List.filterMap_map, List.mem_filterMap]
  constructor
  · intro h
    obtain ⟨⟨line, number⟩, hline, hr⟩ := h
    obtain ⟨hskipped, rfl⟩ := readLine_eq_some_iff.1 hr
    exact ⟨number, _, ⟨line, Text.isLine_iff.2 hline, hskipped, rfl⟩, rfl⟩
  · intro h
    obtain ⟨number, read, ⟨line, hline, hskipped, rfl⟩, hr⟩ := h
    exact ⟨⟨line, number⟩, Text.isLine_iff.1 hline, readLine_eq_some_iff.2 ⟨hskipped, hr⟩⟩

theorem error_mem_readLines_iff {e : Error} :
    .error e ∈ readLines path ((Text.lines text).map some) ↔
      e.location.file = path ∧ Reads text e.location.line (.error e.cause) := by
  rw [mem_readLines_iff]
  constructor
  · intro h
    obtain ⟨number, read, hread, he⟩ := h
    cases read with
    | ok line => cases he
    | error cause =>
      cases he
      exact ⟨rfl, hread⟩
  · intro h
    obtain ⟨rfl, hread⟩ := h
    exact ⟨_, _, hread, rfl⟩

theorem ok_mem_readLines_iff {d : Definition} :
    .ok d ∈ readLines path ((Text.lines text).map some) ↔ Reads text d.number (.ok d.line) := by
  rw [mem_readLines_iff]
  constructor
  · intro h
    obtain ⟨number, read, hread, hd⟩ := h
    cases read with
    | ok line =>
      cases hd
      exact hread
    | error cause => cases hd
  · intro h
    exact ⟨_, _, h, rfl⟩

theorem readLines_pairwise (path : String) (lines : List (List Char)) :
    (readLines path (lines.map some)).Pairwise (numberOf · < numberOf ·) := by
  rw [readLines, List.zipIdx_map, List.filterMap_map, List.pairwise_filterMap]
  refine (zipIdx_pairwise lines 1).imp fun {p q} hlt r hr r' hr' ↦ ?_
  obtain ⟨-, rfl⟩ := readLine_eq_some_iff.1 hr
  obtain ⟨-, rfl⟩ := readLine_eq_some_iff.1 hr'
  rw [numberOf_located, numberOf_located]
  exact hlt

end Lines

section Draft

open Grammar (Declaration)

theorem Line.start?_declarations (line : Line) :
    line.declarations.filterMap Declaration.start? = [] := by
  cases line with
  | words category ws => rfl
  | rule head alternatives =>
    rw [declarations, List.filterMap_flatMap, List.flatMap_eq_nil_iff]
    intro alternative _
    rw [List.filterMap_append, List.filterMap_filterMap, List.append_eq_nil_iff,
      List.filterMap_eq_nil_iff]
    refine ⟨fun item _ ↦ ?_, rfl⟩
    cases item <;> rfl

theorem Line.productions_declarations (line : Line) :
    line.declarations.flatMap Declaration.productions = line.productions := by
  cases line with
  | words category ws => rfl
  | rule head alternatives =>
    rw [declarations, List.flatMap_assoc, productions, List.map_eq_flatMap]
    refine List.flatMap_congr fun alternative _ ↦ ?_
    rw [List.flatMap_append, List.flatMap_singleton]
    refine List.append_left_eq_self.2 (List.flatMap_eq_nil_iff.2 ?_)
    intro declaration hdeclaration
    obtain ⟨item, -, hitem⟩ := List.mem_filterMap.1 hdeclaration
    cases item with
    | category => cases hitem
    | literal =>
      cases hitem
      rfl

theorem Line.entries_declarations (line : Line) :
    line.declarations.flatMap Declaration.entries = line.entries := by
  cases line with
  | words category ws => simp [declarations, Declaration.entries, entries]
  | rule head alternatives =>
    rw [declarations, List.flatMap_assoc, entries, List.filterMap_flatten, ← List.flatMap_def]
    refine List.flatMap_congr fun alternative _ ↦ ?_
    have hrule : Declaration.entries (.rule head (alternative.map Item.name)) = [] := rfl
    rw [List.flatMap_append, List.flatMap_singleton, hrule, List.append_nil,
      List.filterMap_eq_flatMap_toList, List.flatMap_assoc, List.filterMap_eq_flatMap_toList]
    refine List.flatMap_congr fun item _ ↦ ?_
    cases item <;> rfl

theorem Line.mem_entries_iff {line : Line} {e : LexicalEntry} : e ∈ line.entries ↔
    (∃ head alternatives alternative, line = .rule head alternatives ∧
      alternative ∈ alternatives ∧ .literal e.token ∈ alternative ∧ e.category = e.token) ∨
    ∃ ws, line = .words e.category ws ∧ e.token ∈ ws := by
  cases line with
  | rule head alternatives =>
    rw [entries, List.mem_filterMap]
    constructor
    · intro h
      obtain ⟨item, hitem, he⟩ := h
      obtain ⟨alternative, hmem, hitem⟩ := List.mem_flatten.1 hitem
      cases item with
      | category => cases he
      | literal =>
        cases he
        exact .inl ⟨_, _, alternative, rfl, hmem, hitem, rfl⟩
    · intro h
      obtain ⟨_, _, alternative, hline, hmem, hitem, he⟩ | ⟨_, hline, -⟩ := h
      · cases hline
        refine ⟨_, List.mem_flatten.2 ⟨alternative, hmem, hitem⟩, ?_⟩
        obtain ⟨token, category⟩ := e
        cases he
        rfl
      · cases hline
  | words category ws =>
    rw [entries, List.mem_map]
    constructor
    · intro h
      obtain ⟨token, htoken, rfl⟩ := h
      exact .inr ⟨ws, rfl, htoken⟩
    · intro h
      obtain ⟨_, _, _, hline, -⟩ | ⟨_, hline, htoken⟩ := h
      · cases hline
      · cases hline
        exact ⟨e.token, htoken, rfl⟩

theorem ofDeclarations_eq_draft (ds : List Definition) (start : String) :
    Grammar.Draft.ofDeclarations start (ds.flatMap (·.line.declarations)) = draft ds start := by
  have hstart : (ds.flatMap (·.line.declarations)).filterMap Declaration.start? = [] := by
    simp [List.filterMap_flatMap, Line.start?_declarations]
  rw [Grammar.Draft.ofDeclarations_eq, Grammar.declared, hstart, draft]
  simp only [List.flatMap_assoc, Line.productions_declarations, Line.entries_declarations]
  rfl

end Draft

section Stages

def Definition.head? (d : Definition) : Option String :=
  match d.line with
  | .rule head _ => some head
  | .words _ _ => none

theorem Definition.head?_eq_some_iff {d : Definition} {start : String} :
    d.head? = some start ↔ ∃ alternatives number, d = ⟨.rule start alternatives, number⟩ := by
  obtain ⟨line, number⟩ := d
  cases line <;> simp [head?, eq_comm]

theorem Definition.head?_eq_none_iff {d : Definition} :
    d.head? = none ↔ ∃ category ws, d.line = .words category ws := by
  obtain ⟨line, number⟩ := d
  cases line <;> simp [head?]

theorem start?_eq_findSome? (ds : List Definition) :
    start? ds = ds.findSome? Definition.head? := rfl

theorem start?_eq_some_iff {ds : List Definition} {start : String} :
    start? ds = some start ↔ Starts ds start := by
  rw [start?_eq_findSome?, List.findSome?_eq_some_iff]
  simp only [Definition.head?_eq_some_iff, Definition.head?_eq_none_iff]
  constructor
  · intro h
    obtain ⟨before, _, after, rfl, ⟨alternatives, number, rfl⟩, hbefore⟩ := h
    exact ⟨before, alternatives, number, after, rfl, hbefore⟩
  · intro h
    obtain ⟨before, alternatives, number, after, rfl, hbefore⟩ := h
    exact ⟨before, _, after, rfl, ⟨alternatives, number, rfl⟩, hbefore⟩

theorem start?_eq_none_iff {ds : List Definition} :
    start? ds = none ↔ ∀ d ∈ ds, ∃ category ws, d.line = .words category ws := by
  rw [start?_eq_findSome?, List.findSome?_eq_none_iff]
  simp only [Definition.head?_eq_none_iff]

variable {path : String} {ds : List Definition}

theorem undefinedNames_eq_nil (h : ∀ u : Use, ¬ u.Undefined ds) : undefinedNames path ds = [] := by
  rw [undefinedNames_eq, List.map_eq_nil_iff, List.eq_nil_iff_forall_not_mem]
  intro u hu
  exact h u (mem_undefinedUses_iff.1 hu)

theorem resolve_of_undefined (h : undefinedNames path ds ≠ []) :
    resolve path ds = .error (undefinedNames path ds) := by
  rw [resolve]
  split
  next hnil => exact absurd hnil h
  next => rfl

theorem resolve_of_start?_eq_none (h : undefinedNames path ds = []) (hstart : start? ds = none) :
    resolve path ds = .error [⟨⟨path, 0⟩, .noRules⟩] := by
  rw [resolve, h, hstart]

section Build

variable {start : String} (h : undefinedNames path ds = []) (hstart : start? ds = some start)
include h hstart

theorem resolve_of_build_eq_ok {g : Grammar} (hbuild : (draft ds start).build = .ok g) :
    resolve path ds = .ok ⟨g, unusedCategories path ds⟩ := by
  rw [resolve, h, hstart]
  simp only [ofDeclarations_eq_draft, hbuild]

theorem resolve_of_build_eq_error {e : Grammar.BuildError}
    (hbuild : (draft ds start).build = .error e) :
    resolve path ds = .error [⟨⟨path, 0⟩, .invalidGrammar e⟩] := by
  rw [resolve, h, hstart]
  simp only [ofDeclarations_eq_draft, hbuild]

end Build

theorem resolve_eq_ok_iff {loaded : Loaded} :
    resolve path ds = .ok loaded ↔ undefinedNames path ds = [] ∧ ∃ start, start? ds = some start ∧
      (draft ds start).build = .ok loaded.grammar ∧
        loaded.unused = unusedCategories path ds := by
  constructor
  · intro h
    have hundefined : undefinedNames path ds = [] := by
      by_contra hne
      rw [resolve_of_undefined hne] at h
      cases h
    refine ⟨hundefined, ?_⟩
    cases hstart : start? ds with
    | none =>
      rw [resolve_of_start?_eq_none hundefined hstart] at h
      cases h
    | some start =>
      refine ⟨start, rfl, ?_⟩
      cases hbuild : (draft ds start).build with
      | ok g =>
        rw [resolve_of_build_eq_ok hundefined hstart hbuild] at h
        cases h
        exact ⟨rfl, rfl⟩
      | error e =>
        rw [resolve_of_build_eq_error hundefined hstart hbuild] at h
        cases h
  · intro h
    obtain ⟨hundefined, start, hstart, hbuild, hunused⟩ := h
    rw [resolve_of_build_eq_ok hundefined hstart hbuild, ← hunused]

theorem resolves (path : String) (h : ds.Pairwise (·.number < ·.number)) :
    Resolves path ds (resolve path ds) := by
  constructor
  · intro hundefined
    refine ⟨undefinedUses ds, ?_, undefinedUses_pairwise h, fun u ↦ mem_undefinedUses_iff⟩
    rw [← undefinedNames_eq, resolve_of_undefined]
    obtain ⟨u, hu⟩ := hundefined
    rw [undefinedNames_eq, ne_eq, List.map_eq_nil_iff]
    exact List.ne_nil_of_mem (mem_undefinedUses_iff.2 hu)
  · intro hdefined hwords
    exact resolve_of_start?_eq_none (undefinedNames_eq_nil hdefined) (start?_eq_none_iff.2 hwords)
  · intro hdefined start hstart e hbuild
    exact resolve_of_build_eq_error (undefinedNames_eq_nil hdefined) (start?_eq_some_iff.2 hstart)
      hbuild
  · intro hdefined start hstart g hbuild
    exact resolve_of_build_eq_ok (undefinedNames_eq_nil hdefined) (start?_eq_some_iff.2 hstart)
      hbuild

def readText (path text : String) : List (Except Error Definition) :=
  readLines path ((Text.lines text.toList).map some)

theorem ofText_of_failures {path text : String} (h : failures (readText path text) ≠ []) :
    ofText path text = .error (failures (readText path text)) := by
  rw [ofText, ofLines, filterMap_eq_failures (fun _ ↦ rfl) fun _ ↦ rfl]
  split
  next hnil => exact absurd hnil h
  next => rfl

theorem ofText_of_successes {path text : String} (h : failures (readText path text) = []) :
    ofText path text = resolve path (successes (readText path text)) := by
  rw [ofText, ofLines, filterMap_eq_failures (fun _ ↦ rfl) fun _ ↦ rfl,
    filterMap_eq_successes (fun _ ↦ rfl) fun _ ↦ rfl, ← readText, h]

theorem contains_successes (path text : String) :
    Contains text.toList (successes (readText path text)) := by
  constructor
  · exact successes_pairwise (readLines_pairwise path _)
  · intro d
    rw [mem_successes_iff, readText, ok_mem_readLines_iff]

/-- Whatever the text: each stage of loading reports all that it has to report, in order and where
it belongs, and only if the stages before it have nothing to report. -/
theorem ofText_reports (path text : String) : Reports path text.toList (ofText path text) := by
  have hmem (e : Error) : e ∈ failures (readText path text) ↔
      e.location.file = path ∧ Reads text.toList e.location.line (.error e.cause) := by
    rw [mem_failures_iff, readText, error_mem_readLines_iff]
  constructor
  · intro h
    obtain ⟨number, cause, hread⟩ := h
    have hne : failures (readText path text) ≠ [] :=
      List.ne_nil_of_mem ((hmem ⟨⟨path, number⟩, cause⟩).2 ⟨rfl, hread⟩)
    exact ⟨_, ofText_of_failures hne, failures_pairwise (readLines_pairwise path _), hmem⟩
  · intro h
    have hnil : failures (readText path text) = [] := by
      rw [List.eq_nil_iff_forall_not_mem]
      intro e he
      exact h _ _ ((hmem e).1 he).2
    have hcontains := contains_successes path text
    rw [ofText_of_successes hnil]
    exact ⟨_, hcontains, resolves path hcontains.increasing⟩

theorem ofText_eq_ok_iff {path text : String} {loaded : Loaded} :
    ofText path text = .ok loaded ↔ failures (readText path text) = [] ∧
      resolve path (successes (readText path text)) = .ok loaded := by
  by_cases h : failures (readText path text) = []
  · rw [ofText_of_successes h, and_iff_right h]
  · rw [ofText_of_failures h]
    exact iff_of_false nofun fun hnil ↦ h hnil.1

/-- A text without faulty lines is loaded if what its lines declare can be built. -/
theorem ofText_of_build {path text start : String} {ds : List Definition} {d : Grammar.Draft}
    {loaded : Loaded} (hread : readText path text = ds.map .ok)
    (hdefined : undefinedNames path ds = []) (hstart : start? ds = some start)
    (hdraft : draft ds start = d) (hbuild : d.build = .ok loaded.grammar)
    (hunused : unusedCategories path ds = loaded.unused) : ofText path text = .ok loaded := by
  subst hdraft
  rw [ofText_of_successes (hread ▸ failures_map_ok ds), hread, successes_map_ok, resolve_eq_ok_iff]
  exact ⟨hdefined, start, hstart, hbuild, hunused.symm⟩

theorem exists_draft_of_ofText {path text : String} {loaded : Loaded}
    (h : ofText path text = .ok loaded) :
    ∃ ds start, Contains text.toList ds ∧ (draft ds start).build = .ok loaded.grammar := by
  obtain ⟨-, hresolve⟩ := ofText_eq_ok_iff.1 h
  obtain ⟨-, start, -, hbuild, -⟩ := resolve_eq_ok_iff.1 hresolve
  exact ⟨_, start, contains_successes path text, hbuild⟩

end Stages

end Readings.GrammarFile
