import Readings.Proofs.GrammarFile.Closed
import Readings.Proofs.GrammarFile.Numbering
import Readings.Proofs.GrammarFile.Writing

/-!
The layout of a grammar file does not matter. Lines that are skipped may be put in anywhere, lines
may end at a carriage return and a line feed, and the alternatives of a rule may stand in one line
or each in a line of its own.
-/

namespace Readings.GrammarFile

/-- Behind the first `n` lines of the text there is a further line, which is skipped. -/
inductive SkippedLineInserted : Nat → List Char → List Char → Prop
  | intro {text edited line : List Char} {before after : List (List Char)}
      (old : Text.Lined text (before ++ after)) (new : Text.Lined edited (before ++ line :: after))
      (skipped : Line.Skipped line) : SkippedLineInserted before.length text edited

/-- A carriage return is put before each line feed. -/
def withReturns (text : List Char) : List Char :=
  text.flatMap fun c ↦ if c = '\n' then ['\r', '\n'] else [c]

/-- In place of a line that gives the alternatives of a head there is one line for each alternative,
in order. The alternatives may have faults. -/
inductive AlternativesSplit : List Char → List Char → Prop
  | intro {text edited line : List Char} {before after lines : List (List Char)} {head : String}
      {alternatives : List (List Token)} (old : Text.Lined text (before ++ line :: after))
      (new : Text.Lined edited (before ++ (lines ++ after))) (some : alternatives ≠ [])
      (split : ∀ a ∈ alternatives, .bar ∉ a)
      (whole : Token.Spells line
        (.name head :: .equals :: [Token.bar].intercalate alternatives))
      (each : List.Forall₂ (fun line a ↦ Token.Spells line (.name head :: .equals :: a))
        lines alternatives) : AlternativesSplit text edited

section Skipped

/-- The number of a line when a line is put in behind the first `n`. -/
def pushed (n line : Nat) : Nat := if line ≤ n then line else line + 1

theorem readText_of_inserted {path text edited : String} {n : Nat}
    (h : SkippedLineInserted n text.toList edited.toList) :
    readText path edited = (readText path text).map (renumber (pushed n)) := by
  cases h with
  | @intro _ _ line before after old new skipped =>
    have hread : Line.read? line = none := by
      rw [Line.read?, Line.isMeaningful_eq_false_iff.2 skipped, if_neg Bool.false_ne_true]
    have hbefore : ∀ i < (before.map Line.read?).length, pushed before.length (1 + i) = 1 + i := by
      intro i hi
      rw [List.length_map] at hi
      exact if_pos (by omega)
    have hafter : ∀ i < (after.map Line.read?).length,
        pushed before.length (1 + (before.map Line.read?).length + i) =
          1 + (before.map Line.read?).length + 1 + i := by
      intro i _
      rw [List.length_map, pushed, if_neg (by omega)]
      omega
    rw [readText_eq old, readText_eq new, List.map_append, List.map_append, List.map_cons, hread,
      locate_append, locate_append, List.map_append, map_renumber_locate hbefore,
      map_renumber_locate hafter, locate_cons]
    rfl

end Skipped

section Returns

theorem withReturns_of_notMem {line : List Char} (h : '\n' ∉ line) : withReturns line = line := by
  rw [withReturns, List.flatMap_congr (g := fun c ↦ [c]) fun c hc ↦
    if_neg (ne_of_mem_of_not_mem hc h)]
  simp

theorem withReturns_append (text text' : List Char) :
    withReturns (text ++ text') = withReturns text ++ withReturns text' := List.flatMap_append

theorem withReturns_flatMap {ls : List (List Char)} (h : ∀ l ∈ ls, '\n' ∉ l) :
    withReturns (ls.flatMap (· ++ ['\n'])) =
      (ls.map (· ++ ['\r'])).flatMap (· ++ ['\n']) := by
  induction ls with
  | nil => rfl
  | cons l ls ih =>
    obtain ⟨hl, hls⟩ := List.forall_mem_cons.1 h
    have hfeed : withReturns ['\n'] = ['\r'] ++ ['\n'] := rfl
    rw [List.flatMap_cons, withReturns_append, withReturns_append, withReturns_of_notMem hl, hfeed,
      ih hls, List.map_cons, List.flatMap_cons]
    simp only [List.append_assoc]

/-- With carriage returns the lines are the same but for blanks at their ends. -/
theorem lined_withReturns {text : List Char} {ls : List (List Char)} (h : Text.Lined text ls) :
    ∃ ls', Text.Lined (withReturns text) ls' ∧ ls'.map Line.read? = ls.map Line.read? := by
  have hnoFeed {ls : List (List Char)} (h : ∀ l ∈ ls, '\n' ∉ l) :
      ∀ l ∈ ls.map (· ++ ['\r']), '\n' ∉ l := by
    intro l hl
    obtain ⟨l, hmem, rfl⟩ := List.mem_map.1 hl
    simp [h l hmem]
  have hread (ls : List (List Char)) :
      (ls.map (· ++ ['\r'])).map Line.read? = ls.map Line.read? := by
    rw [List.map_map]
    exact List.map_congr_left fun l _ ↦ Line.read?_concat_blank (by decide) l
  cases h with
  | closed noFeed =>
    rw [withReturns_flatMap noFeed]
    exact ⟨_, .closed (hnoFeed noFeed), hread _⟩
  | unclosed noFeed whole nonempty =>
    rw [withReturns_append, withReturns_flatMap noFeed, withReturns_of_notMem whole]
    refine ⟨_, .unclosed (hnoFeed noFeed) whole nonempty, ?_⟩
    rw [List.map_append, List.map_append, hread]

theorem ofText_congr {path text edited : String} (h : readText path edited = readText path text) :
    ofText path edited = ofText path text := by
  by_cases hnil : failures (readText path text) = []
  · rw [ofText_of_successes hnil, ofText_of_successes (h ▸ hnil), h]
  · rw [ofText_of_failures hnil, ofText_of_failures (h ▸ hnil), h]

end Returns

section Split

theorem isMeaningful_of_spells {line : List Char} {head : String} {ts : List Token}
    (h : Token.Spells line (.name head :: ts)) :
    Line.isMeaningful line = Line.isMeaningful head.toList := by
  obtain ⟨hne, hproper⟩ := h.isProper _ List.mem_cons_self
  obtain ⟨left, right, rfl, hblank, -, -⟩ := h.exists_first
  obtain ⟨c, cs, hcs⟩ := List.exists_cons_of_ne_nil hne
  have hc : ¬ Text.isBlank c := by
    intro hc
    exact hproper c (by simp [hcs]) (by simp [Token.isDelimiter, hc])
  rw [Line.isMeaningful, Line.isMeaningful, List.dropWhile_append_of_pos hblank, Token.written, hcs,
    List.cons_append, List.dropWhile_cons_of_neg hc, List.dropWhile_cons_of_neg hc]

theorem read?_of_spells {line : List Char} {head : String} {ts : List Token}
    (h : Token.Spells line (.name head :: ts)) : Line.read? line =
      if Line.isMeaningful head.toList then some (Line.ofTokens (.name head :: ts)) else none := by
  rw [Line.read?, isMeaningful_of_spells h, Line.parse, h.scan_eq]
  rfl

/-- What comes of a line with alternatives, and of a line for each of them. -/
inductive SplitReads : List (Except Cause Line) → List (Except Cause Line) → Prop
  | skipped : SplitReads [] []
  | faulty {rs rs' : List (Except Cause Line)} {e : Cause} (mem : .error e ∈ rs)
      (mem' : .error e ∈ rs') : SplitReads rs rs'
  | rules {head : String} {alternatives : List (List Item)} (some : alternatives ≠ []) :
      SplitReads ([Line.rule head alternatives].map .ok)
        ((alternatives.map fun a ↦ Line.rule head [a]).map .ok)

variable {head : String}

theorem ofTokens_of_notMem {a : List Token} (h : .bar ∉ a) :
    Line.ofTokens (.name head :: .equals :: a) =
      (fun alternative ↦ Line.rule head [alternative]) <$> Line.alternative a := by
  rw [Line.ofTokens, Text.pieces_of_notMem h, List.mapM_cons, List.mapM_nil]
  cases Line.alternative a <;> rfl

/-- The first fault of an alternative is that of the line with all of them. -/
theorem splitReads_ofTokens {alternatives : List (List Token)} (some : alternatives ≠ [])
    (split : ∀ a ∈ alternatives, .bar ∉ a) :
    SplitReads
      [Line.ofTokens (.name head :: .equals :: [Token.bar].intercalate alternatives)]
      (alternatives.map fun a ↦ Line.ofTokens (.name head :: .equals :: a)) := by
  rw [Line.ofTokens, Text.pieces_eq_iff.2 ⟨some, split, rfl⟩]
  cases hmap : alternatives.mapM Line.alternative with
  | error e =>
    obtain ⟨before, a, after, rfl, -, ha⟩ := mapM_eq_error_iff.1 hmap
    refine .faulty (List.mem_singleton_self _) (List.mem_map.2 ⟨a, by simp, ?_⟩)
    rw [ofTokens_of_notMem (split a (by simp)), ha]
    rfl
  | ok items =>
    have hforall := mapM_eq_ok_iff.1 hmap
    have hsome : items ≠ [] := by
      rintro rfl
      exact some (List.forall₂_nil_right_iff.1 hforall)
    have heach : (alternatives.map fun a ↦ Line.ofTokens (.name head :: .equals :: a)) =
        (items.map fun a ↦ Line.rule head [a]).map .ok := by
      rw [List.map_map, ← List.forall₂_eq_eq_eq, List.forall₂_map_left_iff,
        List.forall₂_map_right_iff]
      refine ((List.forall₂_and_left _ _).2 ⟨split, hforall⟩).imp fun a alternative h ↦ ?_
      obtain ⟨hbar, ha⟩ := h
      rw [ofTokens_of_notMem hbar, ha]
      rfl
    rw [heach]
    exact .rules hsome

theorem splitReads_filterMap {line : List Char} {lines : List (List Char)}
    {alternatives : List (List Token)} (some : alternatives ≠ [])
    (split : ∀ a ∈ alternatives, .bar ∉ a)
    (whole : Token.Spells line (.name head :: .equals :: [Token.bar].intercalate alternatives))
    (each : List.Forall₂ (fun line a ↦ Token.Spells line (.name head :: .equals :: a))
      lines alternatives) :
    SplitReads ([line].filterMap Line.read?) (lines.filterMap Line.read?) := by
  have hlines : lines.map Line.read? = alternatives.map fun a ↦
      if Line.isMeaningful head.toList then
        Option.some (Line.ofTokens (.name head :: .equals :: a)) else none := by
    rw [← List.forall₂_eq_eq_eq, List.forall₂_map_left_iff, List.forall₂_map_right_iff]
    exact each.imp fun _ _ ↦ read?_of_spells
  have hfilterMap (ls : List (List Char)) :
      ls.filterMap Line.read? = (ls.map Line.read?).filterMap id := by
    rw [List.filterMap_map]
    rfl
  rw [hfilterMap, hfilterMap, hlines, List.map_singleton, read?_of_spells whole]
  -- a head with a semicolon in front makes comments of all the lines
  split_ifs
  · simpa using splitReads_ofTokens some split
  · simpa using .skipped

theorem Makes.congr {ls ls' : List Line} {g : Grammar}
    (huses : ls.flatMap Line.uses = ls'.flatMap Line.uses)
    (hdefines : ∀ name, name ∈ ls.flatMap Line.defines ↔ name ∈ ls'.flatMap Line.defines)
    (hhead : ls.findSome? Line.head? = ls'.findSome? Line.head?)
    (hproductions : ls.flatMap Line.productions = ls'.flatMap Line.productions)
    (hentries : ls.flatMap Line.entries = ls'.flatMap Line.entries) :
    Makes ls g ↔ Makes ls' g := by
  simp only [makes_iff, huses, hdefines, hhead, hproductions, hentries]

theorem Line.exists_defines_split_iff {alternatives : List (List Item)} (some : alternatives ≠ [])
    {name : String} : (∃ l ∈ alternatives.map (fun a ↦ rule head [a]), l.Defines name) ↔
      (rule head alternatives).Defines name := by
  constructor
  · intro h
    obtain ⟨l, hl, hname⟩ := h
    obtain ⟨a, ha, rfl⟩ := List.mem_map.1 hl
    cases hname with
    | head => exact .head
    | literal mem item =>
      obtain rfl := List.mem_singleton.1 mem
      exact .literal ha item
  · intro h
    cases h with
    | head =>
      obtain ⟨a, rest, rfl⟩ := List.exists_cons_of_ne_nil some
      exact ⟨_, List.mem_cons_self, .head⟩
    | literal mem item =>
      exact ⟨_, List.mem_map_of_mem mem, .literal (List.mem_singleton_self _) item⟩

/-- A rule makes what rules for its alternatives make, one after the other. -/
theorem makes_split_iff {before after : List Line} {alternatives : List (List Item)}
    (some : alternatives ≠ []) {g : Grammar} :
    Makes (before ++ ([.rule head alternatives] ++ after)) g ↔
      Makes (before ++ (alternatives.map (fun a ↦ Line.rule head [a]) ++ after)) g := by
  have hflatten {β : Type} (f : Item → Option β) :
      alternatives.flatten.filterMap f = alternatives.flatMap (·.filterMap f) := by
    rw [List.filterMap_flatten, List.flatMap_def]
  have hfindSome : [Line.rule head alternatives].findSome? Line.head? =
      (alternatives.map fun a ↦ Line.rule head [a]).findSome? Line.head? := by
    obtain ⟨a, rest, rfl⟩ := List.exists_cons_of_ne_nil some
    rfl
  apply Makes.congr
  · simp [List.flatMap_map, Line.uses, Line.items, hflatten]
  · intro name
    simp only [List.flatMap_append, List.mem_append, List.flatMap_singleton, List.mem_flatMap,
      Line.mem_defines_iff, Line.exists_defines_split_iff some]
  · simp only [List.findSome?_append, hfindSome]
  · have hmap (f : List Item → Production) :
        alternatives.map f = alternatives.flatMap fun a ↦ [f a] := List.map_eq_flatMap
    simp only [List.flatMap_append, List.flatMap_singleton, List.flatMap_map, Line.productions,
      List.map_singleton, hmap]
  · simp [List.flatMap_map, Line.entries, hflatten]

theorem SplitReads.makes_iff {rs rs' before after : List (Except Cause Line)}
    (h : SplitReads rs rs') {g : Grammar} :
    (failures (before ++ (rs ++ after)) = [] ∧ Makes (successes (before ++ (rs ++ after))) g) ↔
      (failures (before ++ (rs' ++ after)) = [] ∧
        Makes (successes (before ++ (rs' ++ after))) g) := by
  cases h with
  | skipped => rfl
  | faulty mem mem' =>
    have hne {rs : List (Except Cause Line)} {e : Cause} (h : .error e ∈ rs) :
        failures (before ++ (rs ++ after)) ≠ [] :=
      List.ne_nil_of_mem (mem_failures_iff.2
        (List.mem_append_right before (List.mem_append_left after h)))
    exact iff_of_false (fun h ↦ hne mem h.1) fun h ↦ hne mem' h.1
  | rules some =>
    simp only [failures_append, successes_append, failures_map_ok, successes_map_ok,
      makes_split_iff some]

theorem map_grammar_ofText_iff_of_lined {path text : String} {ls : List (List Char)}
    (h : Text.Lined text.toList ls) {g : Grammar} : (·.grammar) <$> ofText path text = .ok g ↔
      failures (ls.filterMap Line.read?) = [] ∧ Makes (successes (ls.filterMap Line.read?)) g := by
  rw [map_grammar_ofText_eq_ok_iff, ← List.map_eq_nil_iff (f := (·.cause)), readText_eq h,
    map_cause_failures_locate, map_line_successes_locate, List.filterMap_map]
  rfl

theorem map_grammar_ofText_of_split {path text edited : String}
    (h : AlternativesSplit text.toList edited.toList) {g : Grammar} :
    (·.grammar) <$> ofText path edited = .ok g ↔ (·.grammar) <$> ofText path text = .ok g := by
  cases h with
  | intro old new some split whole each =>
    rw [← List.singleton_append] at old
    rw [map_grammar_ofText_iff_of_lined old, map_grammar_ofText_iff_of_lined new]
    simp only [List.filterMap_append]
    exact (splitReads_filterMap some split whole each).makes_iff.symm

end Split

/-- The layout of a text does not matter. A line that is skipped may be put in behind any line: the
grammar is the same, or else the same is reported, of lines whose numbers have grown by one behind
it, and of the file as a whole. With a carriage return before each line feed nothing changes. When
the alternatives of a rule are given a line each, the grammar is the same, if there is one. -/
theorem ofText_layout (path text edited : String) :
    (∀ n, SkippedLineInserted n text.toList edited.toList →
      (·.grammar) <$> ofText path edited =
        ((·.grammar) <$> ofText path text).mapError (List.map (Error.renumber (pushed n)))) ∧
    (edited.toList = withReturns text.toList → ofText path edited = ofText path text) ∧
    (AlternativesSplit text.toList edited.toList → ∀ g,
      (·.grammar) <$> ofText path edited = .ok g ↔ (·.grammar) <$> ofText path text = .ok g) := by
  refine ⟨fun n hinserted ↦ ?_, fun hreturns ↦ ?_, fun hsplit g ↦ ?_⟩
  · have hwhole : pushed n 0 = 0 := if_pos (Nat.zero_le n)
    exact map_grammar_ofText_renumber hwhole (readText_of_inserted hinserted)
  · obtain ⟨ls, hlined⟩ := Text.exists_lined text.toList
    obtain ⟨ls', hlined', hread⟩ := lined_withReturns hlined
    rw [← hreturns] at hlined'
    apply ofText_congr
    rw [readText_eq hlined, readText_eq hlined', hread]
  · exact map_grammar_ofText_of_split hsplit

/-- The second line has no separator. -/
def faulty : String := "S = \"a\"\nNP\n"

def commented : String := "S = \"a\"\n ; NP = x\nNP\n"

theorem skippedLineInserted_faulty : SkippedLineInserted 1 faulty.toList commented.toList := by
  have old : Text.Lined faulty.toList (["S = \"a\"".toList] ++ ["NP".toList]) :=
    @Text.Lined.closed ["S = \"a\"".toList, "NP".toList] (by decide)
  have new : Text.Lined commented.toList
      (["S = \"a\"".toList] ++ " ; NP = x".toList :: ["NP".toList]) :=
    @Text.Lined.closed ["S = \"a\"".toList, " ; NP = x".toList, "NP".toList] (by decide)
  exact .intro old new (@Line.Skipped.comment [' '] " NP = x".toList (by simp [Text.isBlank]))

/-- The alternatives of a rule in one line. -/
def together : String := "S = NP \"and\" NP | NP\nNP : x\n"

/-- The alternatives of the rule in a line each. -/
def apart : String := "S = NP \"and\" NP\nS = NP\nNP : x\n"

def togetherGrammar : Grammar where
  start := "S"
  symbols := [⟨0, "S", .nonterminal⟩, ⟨1, "NP", .terminal⟩, ⟨2, "and", .terminal⟩]
  names := .ofList [("S", Symbol.mk 0 "S" .nonterminal), ("NP", Symbol.mk 1 "NP" .terminal),
    ("and", Symbol.mk 2 "and" .terminal)]
  rules := [⟨⟨"S", ["NP", "and", "NP"]⟩, 0⟩, ⟨⟨"S", ["NP"]⟩, 1⟩]
  byLhs := .ofList [(0, [0, 1])]
  words.byToken := .ofList [("and", [Symbol.mk 2 "and" .terminal]),
    ("x", [Symbol.mk 1 "NP" .terminal])]
  words.byTerminal := .ofList [(2, ["and"]), (1, ["x"])]

def togetherDefinitions : List Definition :=
  [⟨.rule "S" [[.category "NP", .literal "and", .category "NP"], [.category "NP"]], 1⟩,
    ⟨.words "NP" ["x"], 2⟩]

theorem alternativesSplit_together : AlternativesSplit together.toList apart.toList := by
  have old : Text.Lined together.toList
      ([] ++ "S = NP \"and\" NP | NP".toList :: ["NP : x".toList]) :=
    @Text.Lined.closed ["S = NP \"and\" NP | NP".toList, "NP : x".toList] (by decide)
  have new : Text.Lined apart.toList
      ([] ++ (["S = NP \"and\" NP".toList, "S = NP".toList] ++ ["NP : x".toList])) :=
    @Text.Lined.closed ["S = NP \"and\" NP".toList, "S = NP".toList, "NP : x".toList] (by decide)
  have spells {line : List Char} {ts : List Token} (h : Token.scan line = .ok ts) :
      Token.Spells line ts := Token.scan_eq_ok_iff.1 h
  have each : List.Forall₂ (fun line a ↦ Token.Spells line (.name "S" :: .equals :: a))
      ["S = NP \"and\" NP".toList, "S = NP".toList]
      [[.name "NP", .quoted "and", .name "NP"], [.name "NP"]] :=
    .cons (spells (by decide +kernel)) (.cons (spells (by decide +kernel)) .nil)
  exact .intro old new (by decide) (by decide) (spells (by decide +kernel)) each

/-- The line with the fault is the third behind a comment. -/
theorem ofText_layout_together :
    let returned := "S = NP \"and\" NP | NP\r\nNP : x\r\n"
    (SkippedLineInserted 1 faulty.toList commented.toList ∧
      (·.grammar) <$> ofText "g" commented = .error [⟨⟨"g", 3⟩, .missingSeparator⟩]) ∧
    (returned.toList = withReturns together.toList ∧
      ofText "g" returned = .ok ⟨togetherGrammar, []⟩) ∧
    AlternativesSplit together.toList apart.toList ∧
      (·.grammar) <$> ofText "g" apart = .ok togetherGrammar := by
  intro returned
  have hreturns : returned.toList = withReturns together.toList := by decide
  have hread : readText "g" together = togetherDefinitions.map .ok := by decide +kernel
  have hdraft : draft togetherDefinitions "S" = ⟨"S", [⟨"S", ["NP", "and", "NP"]⟩, ⟨"S", ["NP"]⟩],
      [⟨"and", "and"⟩, ⟨"x", "NP"⟩]⟩ := by decide
  have hload : ofText "g" together = .ok ⟨togetherGrammar, []⟩ :=
    ofText_of_build hread (by decide) (by decide) hdraft rfl (by decide)
  have hfailures : failures (readText "g" faulty) = [⟨⟨"g", 2⟩, .missingSeparator⟩] := by
    decide +kernel
  refine ⟨⟨skippedLineInserted_faulty, ?_⟩, ⟨hreturns, ?_⟩, alternativesSplit_together, ?_⟩
  · rw [(ofText_layout "g" faulty commented).1 1 skippedLineInserted_faulty,
      ofText_of_failures (by simp [hfailures]), hfailures]
    rfl
  · rw [(ofText_layout "g" together returned).2.1 hreturns, hload]
  · rw [(ofText_layout "g" together apart).2.2 alternativesSplit_together, hload]
    rfl

end Readings.GrammarFile
