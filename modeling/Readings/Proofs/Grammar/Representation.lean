import Readings.Proofs.Grammar.Built

/-!
A grammar built from declarations holds what was declared and nothing else, in the order in which it
was declared, and what its queries say of symbols, rules and words agrees.
-/

namespace Readings.Grammar

namespace Declaration

def start? : Declaration → Option String
  | .start name => some name
  | _ => none

def productions : Declaration → List Production
  | .rule lhs rhs => [⟨lhs, rhs⟩]
  | .coordinate categories conjunction => categories.map fun c ↦ ⟨c, [c, conjunction, c]⟩
  | _ => []

def entries : Declaration → List LexicalEntry
  | .word token category => [⟨token, category⟩]
  | .words category tokens => tokens.map (⟨·, category⟩)
  | _ => []

end Declaration

/-- What the declarations say together: the last start symbol, all rules and all words. -/
def declared (start : String) (declarations : List Declaration) : Draft where
  start := (declarations.filterMap (·.start?)).getLastD start
  rules := declarations.flatMap (·.productions)
  words := declarations.flatMap (·.entries)

/-- The symbols are numbered in order, told apart by their names and found by them. -/
structure RepresentsSymbols (g : Grammar) (d : Draft) : Prop where
  numbered : ∀ (i : Nat) (s : Symbol), g.symbols[i]? = some s → s.id = i
  names_nodup : (g.symbols.map (·.name)).Nodup
  symbol?_eq_some_iff : ∀ name s, g.symbol? name = some s ↔ s ∈ g.symbols ∧ s.name = name
  isSome_symbol?_iff : ∀ name, (g.symbol? name).isSome ↔
    name = d.start ∨ (∃ p ∈ d.rules, name = p.lhs ∨ name ∈ p.rhs) ∨ ∃ w ∈ d.words, w.category = name
  isTerminal_iff : ∀ s ∈ g.symbols, s.isTerminal ↔ ∃ w ∈ d.words, w.category = s.name

/-- The rules are the declared ones in order, told apart by what they say and found by it. -/
structure RepresentsRules (g : Grammar) (d : Draft) : Prop where
  productions : g.rules.map (·.toProduction) = d.rules
  productions_nodup : (g.rules.map (·.toProduction)).Nodup
  numbered : ∀ (i : Nat) (r : Rule), g.rules[i]? = some r → r.id = i
  rhs_ne_nil : ∀ r ∈ g.rules, r.rhs ≠ []
  lhs_isNonterminal : ∀ r ∈ g.rules, g.isNonterminal r.lhs
  mem_rulesFor_iff : ∀ s ∈ g.symbols, ∀ r, r ∈ g.rulesFor s ↔ r ∈ g.rules ∧ r.lhs = s.name
  rulesFor_increasing : ∀ s ∈ g.symbols, (g.rulesFor s).Pairwise (·.id < ·.id)
  mem_alternatives_iff : ∀ lhs r, r ∈ g.alternatives lhs ↔ r ∈ g.rules ∧ r.lhs = lhs
  alternatives_increasing : ∀ lhs, (g.alternatives lhs).Pairwise (·.id < ·.id)
  rule?_eq_some_iff : ∀ p r, g.rule? p = some r ↔ r ∈ g.rules ∧ r.toProduction = p
  isSome_rule?_iff : ∀ p, (g.rule? p).isSome ↔ p ∈ d.rules

/-- A token has a terminal if and only if the terminal has the token, if and only if the word was
declared, whether the terminal is asked for as a symbol or by its name. What is listed stands in the
order in which it was first declared. -/
structure RepresentsWords (g : Grammar) (d : Draft) : Prop where
  mem_terminalsFor_iff : ∀ token s,
    s ∈ g.lexicon.terminalsFor token ↔ s ∈ g.symbols ∧ ⟨token, s.name⟩ ∈ d.words
  mem_wordsOf_iff : ∀ s ∈ g.symbols, ∀ token,
    token ∈ g.lexicon.wordsOf s ↔ ⟨token, s.name⟩ ∈ d.words
  terminalsFor_nodup : ∀ token, (g.lexicon.terminalsFor token).Nodup
  wordsOf_nodup : ∀ s ∈ g.symbols, (g.lexicon.wordsOf s).Nodup
  terminalsFor_ordered : ∀ token, (g.lexicon.terminalsFor token).Pairwise fun s s' ↦
    d.words.idxOf ⟨token, s.name⟩ < d.words.idxOf ⟨token, s'.name⟩
  wordsOf_ordered : ∀ s ∈ g.symbols, (g.lexicon.wordsOf s).Pairwise fun t t' ↦
    d.words.idxOf ⟨t, s.name⟩ < d.words.idxOf ⟨t', s.name⟩
  mem_categoriesOf_iff : ∀ token category,
    category ∈ g.lexicon.categoriesOf token ↔ ⟨token, category⟩ ∈ d.words
  mem_tokensOf_iff : ∀ token category,
    token ∈ g.lexicon.tokensOf category ↔ ⟨token, category⟩ ∈ d.words
  categoriesOf_nodup : ∀ token, (g.lexicon.categoriesOf token).Nodup
  tokensOf_nodup : ∀ category, (g.lexicon.tokensOf category).Nodup
  categoriesOf_ordered : ∀ token, (g.lexicon.categoriesOf token).Pairwise fun c c' ↦
    d.words.idxOf ⟨token, c⟩ < d.words.idxOf ⟨token, c'⟩
  tokensOf_ordered : ∀ category, (g.lexicon.tokensOf category).Pairwise fun t t' ↦
    d.words.idxOf ⟨t, category⟩ < d.words.idxOf ⟨t', category⟩

structure Represents (g : Grammar) (d : Draft) : Prop where
  start : g.start = d.start
  symbols : g.RepresentsSymbols d
  rules : g.RepresentsRules d
  words : g.RepresentsWords d

namespace Draft

theorem declare_eq (d : Draft) (x : Declaration) :
    d.declare x = ⟨x.start?.getD d.start, d.rules ++ x.productions, d.words ++ x.entries⟩ := by
  cases x <;> simp [declare, Declaration.start?, Declaration.productions, Declaration.entries]

theorem foldl_declare (d : Draft) (xs : List Declaration) :
    xs.foldl declare d =
      ⟨(xs.filterMap (·.start?)).getLastD d.start, d.rules ++ xs.flatMap (·.productions),
        d.words ++ xs.flatMap (·.entries)⟩ := by
  induction xs generalizing d with
  | nil => simp
  | cons x xs ih =>
    have hstart : (xs.filterMap (·.start?)).getLastD (x.start?.getD d.start) =
        ((x :: xs).filterMap (·.start?)).getLastD d.start := by
      rw [List.filterMap_cons]
      cases x.start? with
      | none => rfl
      | some name => exact List.getLastD_cons.symm
    rw [List.foldl_cons, ih, declare_eq, hstart, List.flatMap_cons, List.flatMap_cons,
      List.append_assoc, List.append_assoc]

theorem ofDeclarations_eq (start : String) (xs : List Declaration) :
    ofDeclarations start xs = declared start xs :=
  foldl_declare { start } xs

variable {d : Draft} {g : Grammar}

theorem isCategory_iff {c : String} : d.isCategory c ↔ ∃ w ∈ d.words, w.category = c := by
  simp only [isCategory, List.any_eq_true, beq_iff_eq]

namespace Yields

variable (h : d.Yields g)
include h

theorem representsSymbols (hkinds : ∀ p ∈ d.rules, ¬ d.isCategory p.lhs) :
    g.RepresentsSymbols d := by
  constructor
  case numbered =>
    intro i s hs
    rw [h.symbols.symbols, List.getElem?_map, Option.map_eq_some_iff] at hs
    obtain ⟨c, hc, rfl⟩ := hs
    obtain ⟨hi, rfl⟩ := List.getElem?_eq_some_iff.1 hc
    exact (nodup_eraseDups d.mentions).idxOf_getElem i hi
  case names_nodup =>
    rw [h.map_name_symbols]
    exact nodup_eraseDups _
  case symbol?_eq_some_iff => exact fun c s ↦ h.symbol?_eq_some_iff
  case isSome_symbol?_iff =>
    intro c
    rw [h.symbol?_eq, ← isCategory_iff, ← mem_mentions_iff]
    by_cases hc : c ∈ d.mentions <;> simp [hc]
  case isTerminal_iff =>
    intro s hs
    obtain ⟨-, he⟩ := h.mem_symbols_iff.1 hs
    rw [← isCategory_iff, Symbol.isTerminal, ← he, beq_iff_eq]
    exact kindOf_eq_terminal_iff hkinds

theorem representsRules (hg : g.WellFormed) (hnodup : d.rules.Nodup) : g.RepresentsRules d := by
  have hproductions : g.rules.map (·.toProduction) = d.rules := by
    rw [h.rules.rules_eq, map_toProduction_numbered]
  have hdistinct : (g.rules.map (·.toProduction)).Nodup := hproductions.symm ▸ hnodup
  have hrulesFor (s : Symbol) (hs : s ∈ g.symbols) :
      g.rulesFor s = g.rules.filter (·.lhs == s.name) := by
    rw [← (h.mem_symbols_iff.1 hs).2, h.rules.rules_eq]
    exact h.rules.rulesFor_symbolOf s.name
  constructor
  case productions => exact hproductions
  case productions_nodup => exact hdistinct
  case numbered =>
    intro i r hr
    rw [h.rules.rules_eq, getElem?_numbered, Option.map_eq_some_iff] at hr
    obtain ⟨p, -, rfl⟩ := hr
    rfl
  case rhs_ne_nil => exact hg.rhs_ne_nil
  case lhs_isNonterminal => exact hg.lhs_isNonterminal
  case mem_rulesFor_iff =>
    intro s hs r
    rw [hrulesFor s hs, List.mem_filter, beq_iff_eq]
  case rulesFor_increasing =>
    intro s hs
    rw [hrulesFor s hs]
    exact hg.increasing.filter _
  case mem_alternatives_iff =>
    intro lhs r
    rw [hg.alternatives_eq, List.mem_filter, beq_iff_eq]
  case alternatives_increasing =>
    intro lhs
    rw [hg.alternatives_eq]
    exact hg.increasing.filter _
  case rule?_eq_some_iff =>
    intro p r
    rw [hg.rule?_eq]
    exact find?_key_eq_some_iff hdistinct
  case isSome_rule?_iff =>
    intro p
    rw [hg.rule?_eq, List.find?_isSome, ← hproductions, List.mem_map]
    simp only [beq_iff_eq]

theorem representsWords : g.RepresentsWords d := by
  have hordered := eraseDups_pairwise_idxOf d.words
  have hterminalsFor (token : String) : g.lexicon.terminalsFor token = _ :=
    h.words.terminalsFor token
  have hwordsOf (s : Symbol) (hs : s ∈ g.symbols) : g.lexicon.wordsOf s =
      g.lexicon.tokensOf s.name := by
    rw [h.tokensOf_eq, ← (h.mem_symbols_iff.1 hs).2]
    exact h.words.wordsOf_symbolOf s.name
  have hterminals (token : String) : (g.lexicon.terminalsFor token).Pairwise fun s s' ↦
      d.words.idxOf ⟨token, s.name⟩ < d.words.idxOf ⟨token, s'.name⟩ := by
    rw [hterminalsFor]
    refine pairwise_map_filter hordered fun w hw ↦ ?_
    obtain rfl : w.token = token := by simpa using hw
    rfl
  have hcategories (token : String) : (g.lexicon.categoriesOf token).Pairwise fun c c' ↦
      d.words.idxOf ⟨token, c⟩ < d.words.idxOf ⟨token, c'⟩ :=
    (hterminals token).map _ fun _ _ hlt ↦ hlt
  have htokens (category : String) : (g.lexicon.tokensOf category).Pairwise fun t t' ↦
      d.words.idxOf ⟨t, category⟩ < d.words.idxOf ⟨t', category⟩ := by
    rw [h.tokensOf_eq]
    refine pairwise_map_filter hordered fun w hw ↦ ?_
    obtain rfl : w.category = category := by simpa using hw
    rfl
  constructor
  case mem_terminalsFor_iff =>
    intro token s
    rw [h.mem_symbols_iff, hterminalsFor]
    simp only [List.mem_map, List.mem_filter, List.mem_eraseDups, beq_iff_eq]
    constructor
    · rintro ⟨w, ⟨hw, rfl⟩, rfl⟩
      exact ⟨⟨h.words.subset w hw, rfl⟩, hw⟩
    · rintro ⟨⟨-, hs⟩, hw⟩
      exact ⟨_, ⟨hw, rfl⟩, hs⟩
  case mem_wordsOf_iff =>
    intro s hs token
    rw [hwordsOf s hs, h.mem_tokensOf_iff]
  case terminalsFor_nodup => exact fun token ↦ nodup_of_pairwise_lt (hterminals token)
  case wordsOf_nodup =>
    intro s hs
    rw [hwordsOf s hs]
    exact nodup_of_pairwise_lt (htokens s.name)
  case terminalsFor_ordered => exact hterminals
  case wordsOf_ordered =>
    intro s hs
    rw [hwordsOf s hs]
    exact htokens s.name
  case mem_categoriesOf_iff => exact h.mem_categoriesOf_iff
  case mem_tokensOf_iff => exact h.mem_tokensOf_iff
  case categoriesOf_nodup => exact fun token ↦ nodup_of_pairwise_lt (hcategories token)
  case tokensOf_nodup => exact fun category ↦ nodup_of_pairwise_lt (htokens category)
  case categoriesOf_ordered => exact hcategories
  case tokensOf_ordered => exact htokens

end Yields

theorem represents_of_build (h : d.build = .ok g) : g.Represents d := by
  have hyields := yields_of_build h
  have hg : g.WellFormed := Built.wellFormed ⟨d, h⟩
  obtain ⟨hkinds, -, hnodup⟩ := exists_build_iff.1 ⟨g, h⟩
  exact ⟨hyields.start, hyields.representsSymbols hkinds, hyields.representsRules hg hnodup,
    hyields.representsWords⟩

end Draft

/-- Whatever is declared, in whatever order: a grammar that is built holds exactly that. -/
theorem build_represents {start : String} {declarations : List Declaration} {g : Grammar}
    (h : (Draft.ofDeclarations start declarations).build = .ok g) :
    g.Represents (declared start declarations) := by
  rw [Draft.ofDeclarations_eq] at h
  exact Draft.represents_of_build h

theorem build_represents_looping :
    let declarations : List Declaration :=
      [.words "a" ["x", "x"], .rule "S" ["S", "S"], .rule "S" ["A"], .start "S", .rule "A" ["S"],
        .word "x" "a", .rule "A" ["a"]]
    (Draft.ofDeclarations "A" declarations).build = .ok looping ∧
      looping.Represents (declared "A" declarations) :=
  ⟨rfl, build_represents rfl⟩

end Readings.Grammar
