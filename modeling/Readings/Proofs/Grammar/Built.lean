import Mathlib.Data.List.Find
import Readings.Grammar.Derivation
import Readings.Proofs.Grammar.Building

/-!
What building a grammar guarantees.
-/

namespace Readings.Grammar

def Built (g : Grammar) : Prop := ∃ d : Draft, d.build = .ok g

structure WellFormed (g : Grammar) : Prop where
  numbered : ∀ r ∈ g.rules, g.rules[r.id]? = some r
  increasing : g.rules.Pairwise (·.id < ·.id)
  rhs_ne_nil : ∀ r ∈ g.rules, r.rhs ≠ []
  symbol?_eq_some_iff : ∀ c s, g.symbol? c = some s ↔ s ∈ g.symbols ∧ s.name = c
  alternatives_eq : ∀ c, g.alternatives c = g.rules.filter (·.lhs == c)
  categoriesOf_nodup : ∀ token, (g.lexicon.categoriesOf token).Nodup
  mem_tokensOf_iff : ∀ token c, token ∈ g.lexicon.tokensOf c ↔ ⟨token, c⟩ ∈ g.lexicon.entries
  isTerminal_iff : ∀ c, g.isTerminal c ↔ ∃ token, ⟨token, c⟩ ∈ g.lexicon.entries
  lhs_isNonterminal : ∀ r ∈ g.rules, g.isNonterminal r.lhs

theorem not_isTerminal_of_isNonterminal {g : Grammar} {c : String} (h : g.isNonterminal c) :
    ¬ g.isTerminal c := by
  rw [isNonterminal] at h
  rw [isTerminal]
  cases hs : g.symbol? c with
  | none => simp
  | some s =>
    rw [hs, Option.any_some, beq_iff_eq] at h
    simp [h]

namespace WellFormed

variable {g : Grammar}

theorem rule_ext (hg : g.WellFormed) {r r' : Rule} (hr : r ∈ g.rules) (hr' : r' ∈ g.rules)
    (h : r.id = r'.id) : r = r' := by
  have hs := hg.numbered r hr
  rw [h, hg.numbered r' hr'] at hs
  exact (Option.some.inj hs).symm

theorem rules_nodup (hg : g.WellFormed) : g.rules.Nodup :=
  nodup_of_pairwise_lt hg.increasing

theorem rule?_eq (hg : g.WellFormed) (p : Production) :
    g.rule? p = g.rules.find? (·.toProduction == p) := by
  rw [rule?, hg.alternatives_eq, List.find?_filter]
  refine List.find?_congr fun r _ ↦ ?_
  rw [Bool.eq_iff_iff, decide_eq_true_eq, beq_iff_eq, beq_iff_eq, beq_iff_eq, Production.mk.injEq]

theorem mem_terminals_iff (hg : g.WellFormed) {c : String} : c ∈ g.terminals ↔ g.isTerminal c := by
  simp only [isTerminal, Option.any_eq_true, hg.symbol?_eq_some_iff, terminals, List.mem_map,
    List.mem_filter, Symbol.isTerminal]
  exact exists_congr fun s ↦ and_right_comm

theorem tokensOf_ne_nil_iff (hg : g.WellFormed) {c : String} :
    g.lexicon.tokensOf c ≠ [] ↔ g.isTerminal c := by
  rw [← List.isEmpty_eq_false_iff, List.isEmpty_eq_false_iff_exists_mem,
    exists_congr fun _ ↦ hg.mem_tokensOf_iff _ _, hg.isTerminal_iff]

theorem arity_pos (hg : g.WellFormed) {r : Rule} (hr : r ∈ g.rules) : 0 < r.arity :=
  List.length_pos_iff.2 (hg.rhs_ne_nil r hr)

end WellFormed

namespace Draft

variable {d : Draft} {g : Grammar}

theorem mem_mentions_iff {c : String} :
    c ∈ d.mentions ↔ c = d.start ∨ (∃ p ∈ d.rules, c = p.lhs ∨ c ∈ p.rhs) ∨ d.isCategory c := by
  simp only [mentions, namesOf, List.cons_append, List.mem_cons, List.mem_append, List.mem_flatMap,
    List.mem_map, isCategory, List.any_eq_true, beq_iff_eq]

namespace Yields

variable (h : d.Yields g)
include h

theorem symbol?_eq (c : String) :
    g.symbol? c = if c ∈ d.mentions then some (symbolOf d.kindOf d.mentions c) else none :=
  h.symbols.getElem?_names c

theorem map_name_symbols : g.symbols.map (·.name) = d.mentions.eraseDups := by
  rw [h.symbols.symbols, List.map_map]
  exact List.map_id' _

theorem mem_symbols_iff {s : Symbol} :
    s ∈ g.symbols ↔ s.name ∈ d.mentions ∧ symbolOf d.kindOf d.mentions s.name = s := by
  rw [h.symbols.symbols, List.mem_map]
  simp only [List.mem_eraseDups]
  constructor
  · rintro ⟨c, hc, rfl⟩
    exact ⟨hc, rfl⟩
  · exact fun hs ↦ ⟨s.name, hs⟩

theorem symbol?_eq_some_iff {c : String} {s : Symbol} :
    g.symbol? c = some s ↔ s ∈ g.symbols ∧ s.name = c := by
  rw [h.symbol?_eq, h.mem_symbols_iff, Option.ite_none_right_eq_some, Option.some.injEq]
  constructor
  · rintro ⟨hc, rfl⟩
    exact ⟨⟨hc, rfl⟩, rfl⟩
  · rintro ⟨hs, rfl⟩
    exact hs

/-- A name of the draft is looked up as a symbol of the kind that the draft gives it. -/
theorem any_symbol? (c : String) (k : Kind) :
    (g.symbol? c).any (·.kind == k) = (decide (c ∈ d.mentions) && d.kindOf c == k) := by
  rw [h.symbol?_eq]
  by_cases hc : c ∈ d.mentions <;> simp [hc, symbolOf]

theorem alternatives_eq (c : String) : g.alternatives c = g.rules.filter (·.lhs == c) := by
  rw [alternatives, h.symbol?_eq, h.rules.rules_eq]
  by_cases hc : c ∈ d.mentions
  · rw [if_pos hc]
    exact h.rules.rulesFor_symbolOf c
  · rw [if_neg hc]
    refine (List.filter_eq_nil_iff.2 fun r hr hlhs ↦ hc ?_).symm
    exact beq_iff_eq.1 hlhs ▸ h.rules.lhs_mem hr

theorem categoriesOf_eq (token : String) :
    g.lexicon.categoriesOf token =
      (d.words.eraseDups.filter (·.token == token)).map (·.category) := by
  have hterminals : g.lexicon.terminalsFor token = _ := h.words.terminalsFor token
  rw [Lexicon.categoriesOf, hterminals, List.map_map]
  rfl

theorem tokensOf_eq (c : String) :
    g.lexicon.tokensOf c = (d.words.eraseDups.filter (·.category == c)).map (·.token) := by
  have hsymbol : g.lexicon.names[c]? = _ := h.symbol?_eq c
  rw [Lexicon.tokensOf, hsymbol]
  by_cases hc : c ∈ d.mentions
  · rw [if_pos hc]
    exact h.words.wordsOf_symbolOf c
  · rw [if_neg hc]
    have hnone : d.words.eraseDups.filter (·.category == c) = [] := by
      refine List.filter_eq_nil_iff.2 fun w hw hcategory ↦ hc ?_
      exact beq_iff_eq.1 hcategory ▸ h.words.subset w (List.mem_eraseDups.1 hw)
    rw [hnone]
    rfl

theorem mem_categoriesOf_iff (token c : String) :
    c ∈ g.lexicon.categoriesOf token ↔ ⟨token, c⟩ ∈ d.words := by
  simp only [h.categoriesOf_eq, List.mem_map, List.mem_filter, List.mem_eraseDups, beq_iff_eq]
  constructor
  · rintro ⟨w, ⟨hw, rfl⟩, rfl⟩
    exact hw
  · exact fun hw ↦ ⟨_, ⟨hw, rfl⟩, rfl⟩

theorem mem_tokensOf_iff (token c : String) :
    token ∈ g.lexicon.tokensOf c ↔ ⟨token, c⟩ ∈ d.words := by
  simp only [h.tokensOf_eq, List.mem_map, List.mem_filter, List.mem_eraseDups, beq_iff_eq]
  constructor
  · rintro ⟨w, ⟨hw, rfl⟩, rfl⟩
    exact hw
  · exact fun hw ↦ ⟨_, ⟨hw, rfl⟩, rfl⟩

theorem mem_entries_iff {w : LexicalEntry} : w ∈ g.lexicon.entries ↔ w ∈ d.words :=
  Lexicon.mem_categoriesOf.symm.trans (h.mem_categoriesOf_iff w.token w.category)

end Yields

end Draft

theorem Built.wellFormed {g : Grammar} (h : g.Built) : g.WellFormed := by
  obtain ⟨d, hd⟩ := h
  have hyields := Draft.yields_of_build hd
  obtain ⟨hl, hne, -⟩ := Draft.exists_build_iff.1 ⟨g, hd⟩
  have hrule {r : Rule} (hr : r ∈ g.rules) : r.toProduction ∈ d.rules := by
    rw [hyields.rules.rules_eq] at hr
    exact toProduction_mem_of_mem_numbered hr
  constructor
  case numbered =>
    rw [hyields.rules.rules_eq]
    exact fun r ↦ getElem?_of_mem_numbered
  case increasing =>
    rw [hyields.rules.rules_eq]
    exact numbered_increasing d.rules
  case rhs_ne_nil => exact fun r hr ↦ hne _ (hrule hr)
  case symbol?_eq_some_iff => exact fun c s ↦ hyields.symbol?_eq_some_iff
  case alternatives_eq => exact hyields.alternatives_eq
  case categoriesOf_nodup =>
    intro token
    rw [hyields.categoriesOf_eq]
    refine ((nodup_eraseDups d.words).filter _).map_on fun w hw w' hw' hsame ↦ ?_
    have htoken := List.of_mem_filter hw
    have htoken' := List.of_mem_filter hw'
    cases w
    cases w'
    simp_all
  case mem_tokensOf_iff =>
    intro token c
    rw [hyields.mem_tokensOf_iff, hyields.mem_entries_iff]
  case isTerminal_iff =>
    intro c
    have hwords : d.isCategory c ↔ ∃ token, ⟨token, c⟩ ∈ g.lexicon.entries := by
      simp only [Draft.isCategory, List.any_eq_true, beq_iff_eq, hyields.mem_entries_iff]
      exact ⟨fun ⟨w, hw, he⟩ ↦ ⟨w.token, he ▸ hw⟩, fun ⟨token, hw⟩ ↦ ⟨_, hw, rfl⟩⟩
    rw [isTerminal, hyields.any_symbol?, ← hwords, Bool.and_eq_true, decide_eq_true_eq, beq_iff_eq,
      Draft.kindOf_eq_terminal_iff hl]
    exact and_iff_right_of_imp fun hc ↦ Draft.mem_mentions_iff.2 (.inr (.inr hc))
  case lhs_isNonterminal =>
    intro r hr
    have hname : r.lhs ∈ d.mentions :=
      Draft.mem_mentions_iff.2 (.inr (.inl ⟨_, hrule hr, .inl rfl⟩))
    rw [isNonterminal, hyields.any_symbol?]
    simp [Draft.kindOf_lhs (hrule hr), hname]

/-- A category that branches into two of itself derives a token any number of times. -/
theorem derives_replicate {g : Grammar} {rule : Rule} (hr : rule ∈ g.rules)
    (hrhs : rule.rhs = [rule.lhs, rule.lhs]) {token : String} (h : g.Derives [rule.lhs] [token])
    (n : Nat) : g.Derives [rule.lhs] (List.replicate (n + 1) token) := by
  induction n with
  | zero => exact h
  | succ n ih =>
    have hbranch : g.Derives rule.rhs (token :: List.replicate (n + 1) token) :=
      hrhs.symm ▸ h.append ih
    have hrule := Derives.rule hr hbranch .nil
    rwa [List.append_nil] at hrule

/-- A small grammar in which `S` and `A` derive each other. -/
def looping : Grammar where
  start := "S"
  symbols := [⟨0, "S", .nonterminal⟩, ⟨1, "A", .nonterminal⟩, ⟨2, "a", .terminal⟩]
  names := .ofList [("S", Symbol.mk 0 "S" .nonterminal), ("A", Symbol.mk 1 "A" .nonterminal),
    ("a", Symbol.mk 2 "a" .terminal)]
  rules := [⟨⟨"S", ["S", "S"]⟩, 0⟩, ⟨⟨"S", ["A"]⟩, 1⟩, ⟨⟨"A", ["S"]⟩, 2⟩, ⟨⟨"A", ["a"]⟩, 3⟩]
  byLhs := .ofList [(0, [0, 1]), (1, [2, 3])]
  words.byToken := .ofList [("x", [Symbol.mk 2 "a" .terminal])]
  words.byTerminal := .ofList [(2, ["x"])]

def loopingDraft : Draft :=
  ⟨"S", [⟨"S", ["S", "S"]⟩, ⟨"S", ["A"]⟩, ⟨"A", ["S"]⟩, ⟨"A", ["a"]⟩], [⟨"x", "a"⟩]⟩

theorem build_loopingDraft : loopingDraft.build = .ok looping := rfl

theorem looping_built : looping.Built := ⟨loopingDraft, build_loopingDraft⟩

theorem looping_derives (n : Nat) : looping.Derives ["S"] (List.replicate (n + 1) "x") := by
  have ha : looping.Derives ["A"] ["x"] :=
    @Derives.rule looping ⟨⟨"A", ["a"]⟩, 3⟩ [] ["x"] [] (by decide) (.token (by decide) .nil) .nil
  have hx : looping.Derives ["S"] ["x"] :=
    @Derives.rule looping ⟨⟨"S", ["A"]⟩, 1⟩ [] ["x"] [] (by decide) ha .nil
  exact @derives_replicate looping ⟨⟨"S", ["S", "S"]⟩, 0⟩ (by decide) rfl "x" hx n

/-- A grammar with a rule of three symbols, the parts of which can be of any width. -/
def tripling : Grammar where
  start := "S"
  symbols := [⟨0, "S", .nonterminal⟩, ⟨1, "A", .nonterminal⟩, ⟨2, "a", .terminal⟩]
  names := .ofList [("S", Symbol.mk 0 "S" .nonterminal), ("A", Symbol.mk 1 "A" .nonterminal),
    ("a", Symbol.mk 2 "a" .terminal)]
  rules := [⟨⟨"S", ["A", "A", "A"]⟩, 0⟩, ⟨⟨"A", ["A", "A"]⟩, 1⟩, ⟨⟨"A", ["a"]⟩, 2⟩]
  byLhs := .ofList [(0, [0]), (1, [1, 2])]
  words.byToken := .ofList [("x", [Symbol.mk 2 "a" .terminal])]
  words.byTerminal := .ofList [(2, ["x"])]

theorem tripling_built : tripling.Built :=
  ⟨⟨"S", [⟨"S", ["A", "A", "A"]⟩, ⟨"A", ["A", "A"]⟩, ⟨"A", ["a"]⟩], [⟨"x", "a"⟩]⟩, rfl⟩

end Readings.Grammar
