import Mathlib.Tactic.MkIffOfInductiveProp
import Readings.Proofs.GrammarFile.Line
import Readings.Proofs.GrammarFile.Load

/-!
A grammar that is loaded is closed: no name is left without a rule or a word. What a text makes is
said of its lines alone, without their numbers: the names that they use are among those that they
define, and what a line defines it also declares.
-/

namespace Readings.GrammarFile

namespace Line

def head? : Line → Option String
  | rule head _ => some head
  | words _ _ => none

variable {line : Line} {name : String}

theorem mem_productions_iff {p : Production} : p ∈ line.productions ↔
    ∃ head alternatives alternative, line = .rule head alternatives ∧
      alternative ∈ alternatives ∧ p = ⟨head, alternative.map Item.name⟩ := by
  cases line with
  | words category ws => exact iff_of_false nofun fun ⟨_, _, _, h, _⟩ ↦ by cases h
  | rule head alternatives =>
    rw [productions, List.mem_map]
    constructor
    · intro h
      obtain ⟨alternative, hmem, rfl⟩ := h
      exact ⟨head, alternatives, alternative, rfl, hmem, rfl⟩
    · intro h
      obtain ⟨_, _, alternative, hline, hmem, rfl⟩ := h
      cases hline
      exact ⟨alternative, hmem, rfl⟩

/-- The name heads a production of the line or is the category of one of its words. -/
def Declares (line : Line) (name : String) : Prop :=
  (∃ p ∈ line.productions, p.lhs = name) ∨ ∃ w ∈ line.entries, w.category = name

theorem declares_of_literal {head word : String} {alternatives : List (List Item)}
    {alternative : List Item} (hmem : alternative ∈ alternatives)
    (hitem : .literal word ∈ alternative) : (rule head alternatives).Declares word :=
  .inr ⟨⟨word, word⟩, mem_entries_iff.2 (.inl ⟨_, _, _, rfl, hmem, hitem, rfl⟩), rfl⟩

theorem Form.exists_production {head : String} {alternatives : List (List Item)}
    {tokens : List Token} (h : Form tokens (.rule head alternatives)) :
    ∃ p ∈ (Line.rule head alternatives).productions, p.lhs = head := by
  cases h with
  | rule some nonempty =>
    obtain ⟨alternative, rest, rfl⟩ := List.exists_cons_of_ne_nil some
    exact ⟨_, List.mem_cons_self, rfl⟩

/-- What a line defines it declares, as a rule has an alternative and a category has a word. -/
theorem Form.declares {tokens : List Token} (h : Form tokens line) (hname : line.Defines name) :
    line.Declares name := by
  cases hname with
  | head => exact .inl h.exists_production
  | literal mem item => exact declares_of_literal mem item
  | @category _ ws =>
    cases h with
    | words nonempty each =>
      obtain ⟨w, rest, rfl⟩ : ∃ w rest, ws = w :: rest := by
        refine List.exists_cons_of_ne_nil fun hnil ↦ nonempty ?_
        rw [hnil] at each
        exact List.map_eq_nil_iff.1 each
      exact .inr ⟨_, List.mem_cons_self, rfl⟩

/-- In a rule stand names that the line uses and literals, which it declares. -/
theorem uses_or_declares {p : Production} (hp : p ∈ line.productions) (hname : name ∈ p.rhs) :
    name ∈ line.uses ∨ line.Declares name := by
  obtain ⟨head, alternatives, alternative, rfl, hmem, rfl⟩ := mem_productions_iff.1 hp
  obtain ⟨item, hitem, rfl⟩ := List.mem_map.1 hname
  cases item with
  | category name =>
    refine .inl (List.mem_filterMap.2 ⟨.category name, ?_, rfl⟩)
    exact List.mem_flatten.2 ⟨alternative, hmem, hitem⟩
  | literal word => exact .inr (declares_of_literal hmem hitem)

theorem exists_form_of_parse {text : List Char} (h : parse text = .ok line) :
    ∃ tokens, Form tokens line := by
  obtain ⟨tokens, -, htokens⟩ := bind_eq_ok_iff.1 h
  exact ⟨tokens, ofTokens_eq_ok_iff.1 htokens⟩

end Line

/-- The names that the lines use are among those that they define, and what they declare makes the
grammar, which starts with the head of the first rule. -/
@[mk_iff]
structure Makes (ls : List Line) (g : Grammar) : Prop where
  defined : ∀ name ∈ ls.flatMap Line.uses, name ∈ ls.flatMap Line.defines
  built : ∃ start, ls.findSome? Line.head? = some start ∧
    (Grammar.Draft.mk start (ls.flatMap Line.productions) (ls.flatMap Line.entries)).build = .ok g

theorem undefinedNames_eq_nil_iff {path : String} {ds : List Definition} :
    undefinedNames path ds = [] ↔ ∀ name ∈ (ds.map (·.line)).flatMap Line.uses,
      name ∈ (ds.map (·.line)).flatMap Line.defines := by
  simp only [undefinedNames, List.flatMap_eq_nil_iff, List.map_eq_nil_iff, List.filter_eq_nil_iff,
    decide_eq_true_eq, not_not, List.flatMap_map, List.mem_flatMap]
  constructor
  · intro h name hname
    obtain ⟨d, hd, hname⟩ := hname
    exact h d hd name hname
  · intro h d hd name hname
    exact h name ⟨d, hd, hname⟩

theorem map_grammar_ofText_eq_ok_iff {path text : String} {g : Grammar} :
    (·.grammar) <$> ofText path text = .ok g ↔ failures (readText path text) = [] ∧
      Makes ((successes (readText path text)).map (·.line)) g := by
  have hstart (ds : List Definition) : start? ds = (ds.map (·.line)).findSome? Line.head? := by
    rw [start?_eq_findSome?, List.findSome?_map]
    rfl
  have hdraft (ds : List Definition) (start : String) : draft ds start =
      ⟨start, (ds.map (·.line)).flatMap Line.productions,
        (ds.map (·.line)).flatMap Line.entries⟩ := by
    rw [draft, List.flatMap_map, List.flatMap_map]
  rw [map_eq_ok_iff]
  simp only [ofText_eq_ok_iff, resolve_eq_ok_iff, undefinedNames_eq_nil_iff, hstart, hdraft]
  constructor
  · intro h
    obtain ⟨loaded, ⟨hnil, hdefined, start, hhead, hbuild, -⟩, rfl⟩ := h
    exact ⟨hnil, hdefined, start, hhead, hbuild⟩
  · intro h
    obtain ⟨hnil, hdefined, start, hhead, hbuild⟩ := h
    exact ⟨⟨g, _⟩, ⟨hnil, hdefined, start, hhead, hbuild, rfl⟩, rfl⟩

section Names

variable {ls : List Line} {g : Grammar}

/-- Every symbol of the grammar is the start symbol, is used by some line or is declared by one; the
first two are defined among the lines, and so declared. -/
theorem Makes.exists_declares (h : Makes ls g) (hforms : ∀ l ∈ ls, ∃ tokens, Line.Form tokens l)
    {s : Symbol} (hs : s ∈ g.symbols) : ∃ l ∈ ls, l.Declares s.name := by
  obtain ⟨hdefined, start, hstart, hbuild⟩ := h
  have hdefines {l : Line} (hl : l ∈ ls) (hname : l.Defines s.name) :
      ∃ l ∈ ls, l.Declares s.name := by
    obtain ⟨tokens, hform⟩ := hforms l hl
    exact ⟨l, hl, hform.declares hname⟩
  have hsymbols := (Grammar.Draft.represents_of_build hbuild).symbols
  have hsome : (g.symbol? s.name).isSome := by
    rw [(hsymbols.symbol?_eq_some_iff s.name s).2 ⟨hs, rfl⟩]
    rfl
  obtain hname | ⟨p, hp, hname⟩ | ⟨w, hw, hname⟩ := (hsymbols.isSome_symbol?_iff s.name).1 hsome
  · obtain ⟨l, hl, hhead⟩ := List.exists_of_findSome?_eq_some hstart
    cases l with
    | words => cases hhead
    | rule =>
      cases hhead
      refine hdefines hl ?_
      rw [hname]
      exact .head
  · obtain ⟨l, hl, hp⟩ := List.mem_flatMap.1 hp
    obtain hname | hname := hname
    · exact ⟨l, hl, .inl ⟨p, hp, hname.symm⟩⟩
    · obtain huses | hdeclares := Line.uses_or_declares hp hname
      · obtain ⟨l', hl', hname⟩ :=
          List.mem_flatMap.1 (hdefined _ (List.mem_flatMap.2 ⟨l, hl, huses⟩))
        exact hdefines hl' (Line.mem_defines_iff.1 hname)
      · exact ⟨l, hl, hdeclares⟩
  · obtain ⟨l, hl, hw⟩ := List.mem_flatMap.1 hw
    exact ⟨l, hl, .inr ⟨w, hw, hname⟩⟩

theorem Makes.exists_rule_of_mem (h : Makes ls g) {l : Line} (hl : l ∈ ls) {p : Production}
    (hp : p ∈ l.productions) : ∃ r ∈ g.rules, r.toProduction = p := by
  obtain ⟨-, start, -, hbuild⟩ := h
  rw [← List.mem_map, (Grammar.Draft.represents_of_build hbuild).rules.productions]
  exact List.mem_flatMap.2 ⟨l, hl, hp⟩

theorem Makes.exists_rule (h : Makes ls g) (hforms : ∀ l ∈ ls, ∃ tokens, Line.Form tokens l)
    {s : Symbol} (hs : s ∈ g.symbols) (hkind : ¬ s.isTerminal) : ∃ r ∈ g.rules, r.lhs = s.name := by
  obtain ⟨l, hl, ⟨p, hp, hname⟩ | ⟨w, hw, hname⟩⟩ := h.exists_declares hforms hs
  · obtain ⟨r, hr, rfl⟩ := h.exists_rule_of_mem hl hp
    exact ⟨r, hr, hname⟩
  · obtain ⟨-, start, -, hbuild⟩ := h
    refine absurd ?_ hkind
    rw [(Grammar.Draft.represents_of_build hbuild).symbols.isTerminal_iff s hs]
    exact ⟨w, List.mem_flatMap.2 ⟨l, hl, hw⟩, hname⟩

theorem Makes.tokensOf_ne_nil (h : Makes ls g) {s : Symbol} (hs : s ∈ g.symbols)
    (hkind : s.isTerminal) : g.lexicon.tokensOf s.name ≠ [] := by
  obtain ⟨-, start, -, hbuild⟩ := h
  have hrepresents := Grammar.Draft.represents_of_build hbuild
  obtain ⟨w, hw, hname⟩ := (hrepresents.symbols.isTerminal_iff s hs).1 hkind
  have hmem := (hrepresents.words.mem_tokensOf_iff w.token s.name).2 (hname ▸ hw)
  exact List.ne_nil_of_mem hmem

end Names

theorem exists_form_of_contains {text : List Char} {ds : List Definition} (h : Contains text ds) :
    ∀ l ∈ ds.map (·.line), ∃ tokens, Line.Form tokens l := by
  intro l hl
  obtain ⟨d, hd, rfl⟩ := List.mem_map.1 hl
  obtain ⟨_, -, -, hparse⟩ := (h.mem_iff d).1 hd
  exact Line.exists_form_of_parse hparse

/-- No rule stands in a line before the one that gives the start symbol. -/
theorem Starts.exists_first {text : List Char} {ds : List Definition} (h : Contains text ds)
    {start : String} (hstart : Starts ds start) :
    ∃ number alternatives, Reads text number (.ok (.rule start alternatives)) ∧
      ∀ number' head alternatives', Reads text number' (.ok (.rule head alternatives')) →
        number ≤ number' := by
  obtain ⟨before, alternatives, number, after, rfl, hbefore⟩ := hstart
  refine ⟨number, alternatives, (h.mem_iff ⟨_, number⟩).1 (by simp), ?_⟩
  intro number' head alternatives' hread
  have hincreasing := (List.pairwise_append.1 h.increasing).2.1
  have hmem := (h.mem_iff ⟨_, number'⟩).2 hread
  rw [List.mem_append, List.mem_cons] at hmem
  obtain hmem | he | hmem := hmem
  · obtain ⟨_, _, hline⟩ := hbefore _ hmem
    cases hline
  · cases he
    exact le_refl number
  · exact ((List.pairwise_cons.1 hincreasing).1 _ hmem).le

/-- In a grammar that is loaded every nonterminal has a rule and every terminal a word. There is a
rule, and the first line with one gives the start symbol. -/
theorem ofText_closed {path text : String} {loaded : Loaded} (h : ofText path text = .ok loaded) :
    (∀ s ∈ loaded.grammar.symbols, ¬ s.isTerminal → ∃ r ∈ loaded.grammar.rules, r.lhs = s.name) ∧
    (∀ s ∈ loaded.grammar.symbols, s.isTerminal → loaded.grammar.lexicon.tokensOf s.name ≠ []) ∧
    loaded.grammar.rules ≠ [] ∧
    ∃ number alternatives,
      Reads text.toList number (.ok (.rule loaded.grammar.start alternatives)) ∧
        ∀ number' head alternatives', Reads text.toList number' (.ok (.rule head alternatives')) →
          number ≤ number' := by
  have hcontains := contains_successes path text
  have hforms := exists_form_of_contains hcontains
  have hmakes := (map_grammar_ofText_eq_ok_iff.1 (map_eq_ok_iff.2 ⟨loaded, h, rfl⟩)).2
  obtain ⟨-, start, hstart, hbuild, -⟩ := resolve_eq_ok_iff.1 (ofText_eq_ok_iff.1 h).2
  have hfirst := (start?_eq_some_iff.1 hstart).exists_first hcontains
  refine ⟨fun s hs ↦ hmakes.exists_rule hforms hs, fun s hs ↦ hmakes.tokensOf_ne_nil hs, ?_, ?_⟩
  · obtain ⟨number, alternatives, hread, -⟩ := hfirst
    have hl := List.mem_map_of_mem (f := (·.line)) ((hcontains.mem_iff ⟨_, number⟩).2 hread)
    obtain ⟨tokens, hform⟩ := hforms _ hl
    obtain ⟨p, hp, -⟩ := hform.exists_production
    obtain ⟨r, hr, -⟩ := hmakes.exists_rule_of_mem hl hp
    exact List.ne_nil_of_mem hr
  · rw [(Grammar.Draft.yields_of_build hbuild).start]
    exact hfirst

/-- Names are used before the lines that define them, one of them only by its being quoted. -/
def forward : String := "; words first\nPN : x\nS = NP and NP | \"and\"\nNP = PN\n"

def forwardGrammar : Grammar where
  start := "S"
  symbols := [⟨0, "S", .nonterminal⟩, ⟨1, "NP", .nonterminal⟩, ⟨2, "and", .terminal⟩,
    ⟨3, "PN", .terminal⟩]
  names := .ofList [("S", Symbol.mk 0 "S" .nonterminal), ("NP", Symbol.mk 1 "NP" .nonterminal),
    ("and", Symbol.mk 2 "and" .terminal), ("PN", Symbol.mk 3 "PN" .terminal)]
  rules := [⟨⟨"S", ["NP", "and", "NP"]⟩, 0⟩, ⟨⟨"S", ["and"]⟩, 1⟩, ⟨⟨"NP", ["PN"]⟩, 2⟩]
  byLhs := .ofList [(0, [0, 1]), (1, [2])]
  words.byToken := .ofList [("x", [Symbol.mk 3 "PN" .terminal]),
    ("and", [Symbol.mk 2 "and" .terminal])]
  words.byTerminal := .ofList [(3, ["x"]), (2, ["and"])]

def forwardDefinitions : List Definition :=
  [⟨.words "PN" ["x"], 2⟩,
    ⟨.rule "S" [[.category "NP", .category "and", .category "NP"], [.literal "and"]], 3⟩,
    ⟨.rule "NP" [[.category "PN"]], 4⟩]

theorem ofText_forward : ofText "forward" forward = .ok ⟨forwardGrammar, []⟩ := by
  have hread : readText "forward" forward = forwardDefinitions.map .ok := by decide +kernel
  have hdraft : draft forwardDefinitions "S" = ⟨"S", [⟨"S", ["NP", "and", "NP"]⟩, ⟨"S", ["and"]⟩,
      ⟨"NP", ["PN"]⟩], [⟨"x", "PN"⟩, ⟨"and", "and"⟩]⟩ := by decide
  exact ofText_of_build hread (by decide) (by decide) hdraft rfl (by decide)

theorem ofText_closed_forward :
    let grammar := forwardGrammar
    ofText "forward" forward = .ok ⟨grammar, []⟩ ∧
      (∀ s ∈ grammar.symbols, ¬ s.isTerminal → ∃ r ∈ grammar.rules, r.lhs = s.name) ∧
      (∀ s ∈ grammar.symbols, s.isTerminal → grammar.lexicon.tokensOf s.name ≠ []) ∧
      grammar.rules ≠ [] ∧
      ∃ number alternatives, Reads forward.toList number (.ok (.rule grammar.start alternatives)) ∧
        ∀ number' head alternatives',
          Reads forward.toList number' (.ok (.rule head alternatives')) → number ≤ number' :=
  ⟨ofText_forward, ofText_closed ofText_forward⟩

end Readings.GrammarFile
