import Mathlib.Data.List.Find
import Readings.Proofs.Grammar.Representation

/-!
How building a grammar comes out: which error is reported for declarations with several faults, and
which declarations are in order.
-/

namespace Readings.Grammar

/-- What a grammar answers by name, apart from how its tables find it. -/
structure Content where
  start : String
  symbols : List Symbol
  rules : List Rule
  symbol? : String → Option Symbol
  alternatives : String → List Rule
  categoriesOf : String → List String
  tokensOf : String → List String

def content (g : Grammar) : Content where
  start := g.start
  symbols := g.symbols
  rules := g.rules
  symbol? := g.symbol?
  alternatives := g.alternatives
  categoriesOf := g.lexicon.categoriesOf
  tokensOf := g.lexicon.tokensOf

namespace Draft

variable {d d' : Draft} {g : Grammar} {p : Production} {rules earlier : List Production}
variable {e : BuildError}

/-- The head of the rule has words. -/
def Mixes (d : Draft) (p : Production) : Prop := ∃ w ∈ d.words, w.category = p.lhs

/-- How building the draft comes out. The first rule whose head has words is reported before
anything else; then it is the first rule that is empty or stands among those before it. -/
structure Outcome (d : Draft) (result : Except BuildError Grammar) : Prop where
  mixed : ∀ name, result = .error (.mixedKind name) ↔ ∃ before p after,
    d.rules = before ++ p :: after ∧ (∀ q ∈ before, ¬ d.Mixes q) ∧ d.Mixes p ∧ p.lhs = name
  faulty : (∀ p ∈ d.rules, ¬ d.Mixes p) → ∀ e, result = .error e ↔ ∃ before p after,
    d.rules = before ++ p :: after ∧ ((∀ q ∈ before, q.rhs ≠ []) ∧ before.Nodup) ∧
      (p.rhs = [] ∨ p ∈ before) ∧ e = faultOf p
  built : (∃ g, result = .ok g) ↔
    (∀ p ∈ d.rules, ¬ d.Mixes p) ∧ (∀ p ∈ d.rules, p.rhs ≠ []) ∧ d.rules.Nodup

theorem checkRules_eq_error_iff :
    checkRules earlier rules = .error e ↔ ∃ before p after, rules = before ++ p :: after ∧
      checkRules earlier before = .ok () ∧ (p.rhs = [] ∨ p ∈ earlier ∨ p ∈ before) ∧
      e = faultOf p := by
  induction rules generalizing earlier with
  | nil => exact iff_of_false nofun fun ⟨_, _, _, h, _⟩ ↦ by simp at h
  | cons p rest ih =>
    rw [checkRules]
    split
    next hp =>
      constructor
      · intro h
        exact ⟨[], p, rest, rfl, rfl, hp.imp_right .inl, (Except.error.inj h).symm⟩
      · rintro ⟨before, q, after, h, hok, -, rfl⟩
        obtain ⟨rfl, h⟩ | ⟨before, rfl, rfl⟩ := List.cons_eq_append_iff.1 h
        · cases h
          rfl
        · rw [checkRules, if_pos hp] at hok
          cases hok
    next hp =>
      rw [ih]
      constructor
      · rintro ⟨before, q, after, rfl, hok, hq, he⟩
        refine ⟨p :: before, q, after, rfl, ?_, ?_, he⟩
        · rwa [checkRules, if_neg hp]
        · simpa [or_assoc] using hq
      · rintro ⟨before, q, after, h, hok, hq, he⟩
        obtain ⟨rfl, h⟩ | ⟨before, rfl, rfl⟩ := List.cons_eq_append_iff.1 h
        · cases h
          exact absurd (by simpa using hq) hp
        · rw [checkRules, if_neg hp] at hok
          refine ⟨before, q, after, rfl, hok, ?_, he⟩
          simpa [or_assoc] using hq

theorem find?_isCategory_eq_some_iff :
    d.rules.find? (fun p ↦ d.isCategory p.lhs) = some p ↔ ∃ before after,
      d.rules = before ++ p :: after ∧ (∀ q ∈ before, ¬ d.Mixes q) ∧ d.Mixes p := by
  rw [List.find?_eq_some_iff_append]
  simp only [Bool.not_eq_true', Mixes, ← isCategory_iff, Bool.not_eq_true]
  tauto

theorem find?_isCategory_eq_none_iff :
    d.rules.find? (fun p ↦ d.isCategory p.lhs) = none ↔ ∀ p ∈ d.rules, ¬ d.Mixes p := by
  simp only [List.find?_eq_none, isCategory_iff, Mixes]

theorem check_eq_error_iff :
    d.check = .error e ↔
      (∃ p, d.rules.find? (fun p ↦ d.isCategory p.lhs) = some p ∧ e = .mixedKind p.lhs) ∨
        (∀ p ∈ d.rules, ¬ d.Mixes p) ∧ checkRules [] d.rules = .error e := by
  rw [← find?_isCategory_eq_none_iff, check]
  cases d.rules.find? fun p ↦ d.isCategory p.lhs with
  | some p => simp [eq_comm]
  | none => simp

theorem faultOf_ne_mixedKind (p : Production) (name : String) : faultOf p ≠ .mixedKind name := by
  rw [faultOf]
  split
  · exact BuildError.noConfusion
  · exact BuildError.noConfusion

theorem outcome_build (d : Draft) : d.Outcome d.build where
  mixed name := by
    rw [build_eq_error_iff, check_eq_error_iff]
    constructor
    · rintro (⟨p, hfind, he⟩ | ⟨-, hcheck⟩)
      · obtain ⟨before, after, hrules, hbefore, hp⟩ := find?_isCategory_eq_some_iff.1 hfind
        cases he
        exact ⟨before, p, after, hrules, hbefore, hp, rfl⟩
      · obtain ⟨_, p, _, _, _, _, he⟩ := checkRules_eq_error_iff.1 hcheck
        exact absurd he.symm (faultOf_ne_mixedKind p name)
    · rintro ⟨before, p, after, hrules, hbefore, hp, rfl⟩
      exact .inl ⟨p, find?_isCategory_eq_some_iff.2 ⟨before, after, hrules, hbefore, hp⟩, rfl⟩
  faulty hnone e := by
    rw [build_eq_error_iff, check_eq_error_iff]
    constructor
    · rintro (⟨p, hfind, -⟩ | ⟨-, hcheck⟩)
      · rw [find?_isCategory_eq_none_iff.2 hnone] at hfind
        cases hfind
      · obtain ⟨before, p, after, hrules, hok, hp, he⟩ := checkRules_eq_error_iff.1 hcheck
        obtain ⟨hne, hnodup⟩ := checkRules_eq_ok_iff.1 hok
        exact ⟨before, p, after, hrules, ⟨fun q hq ↦ (hne q hq).1, hnodup⟩, by simpa using hp, he⟩
    · rintro ⟨before, p, after, hrules, ⟨hne, hnodup⟩, hp, he⟩
      have hok : checkRules [] before = .ok () :=
        checkRules_eq_ok_iff.2 ⟨fun q hq ↦ ⟨hne q hq, List.not_mem_nil⟩, hnodup⟩
      exact .inr ⟨hnone, checkRules_eq_error_iff.2
        ⟨before, p, after, hrules, hok, hp.imp_right .inr, he⟩⟩
  built := by
    simp only [exists_build_iff, isCategory_iff, Mixes]

/-- What the draft says by its names alone: each name has the place at which it is first met, and
rules and words are searched for in the lists of all of them. -/
def namedContent (d : Draft) : Content where
  start := d.start
  symbols := d.mentions.eraseDups.map (symbolOf d.kindOf d.mentions)
  rules := numbered d.rules
  symbol? c := if c ∈ d.mentions then some (symbolOf d.kindOf d.mentions c) else none
  alternatives lhs := (numbered d.rules).filter (·.lhs == lhs)
  categoriesOf token := (d.words.eraseDups.filter (·.token == token)).map (·.category)
  tokensOf category := (d.words.eraseDups.filter (·.category == category)).map (·.token)

/-- Resolves the draft by its names alone, with rules told apart by what they say. -/
def resolveNames (d : Draft) : Except BuildError Content := (fun _ ↦ d.namedContent) <$> d.check

theorem Yields.content_eq (h : d.Yields g) : g.content = d.namedContent := by
  have halternatives : g.alternatives = fun lhs ↦ (numbered d.rules).filter (·.lhs == lhs) := by
    funext lhs
    rw [h.alternatives_eq, h.rules.rules_eq]
  rw [content, h.start, h.symbols.symbols, h.rules.rules_eq, funext h.symbol?_eq, halternatives,
    funext h.categoriesOf_eq, funext h.tokensOf_eq]
  rfl

theorem map_build_eq_resolveNames (d : Draft) : content <$> d.build = d.resolveNames := by
  rw [resolveNames]
  obtain ⟨e, hcheck, hbuild⟩ | ⟨hcheck, g, hbuild, hyields⟩ := d.build_cases
  · rw [hcheck, hbuild]
    rfl
  · rw [hcheck, hbuild, Except.map_ok, Except.map_ok, hyields.content_eq]

/-- Nothing but the rules, and which of their heads have words, matters to what is reported. -/
theorem build_eq_error_congr (hrules : d'.rules = d.rules)
    (hmixes : ∀ p ∈ d.rules, d'.Mixes p ↔ d.Mixes p) :
    d'.build = .error e ↔ d.build = .error e := by
  have hfind : d.rules.find? (fun p ↦ d'.isCategory p.lhs) =
      d.rules.find? fun p ↦ d.isCategory p.lhs := by
    refine List.find?_congr fun p hp ↦ Bool.eq_iff_iff.2 ?_
    rw [isCategory_iff, isCategory_iff]
    exact hmixes p hp
  simp only [build_eq_error_iff, check_eq_error_iff, hrules, hfind,
    forall₂_congr fun p hp ↦ not_congr (hmixes p hp)]

end Draft

/-- Whatever is declared, in whatever order: the first head of a rule that has words is reported
before anything else, then the first rule that is empty or repeated, and if there is none then the
grammar is built. It makes no difference whether names are resolved through the numbers of symbols
and the tables of these, or searched for as they are, nor what else is declared: a start symbol that
is not used, names without a definition, words that are repeated or of no use. -/
theorem build_outcome (start : String) (declarations : List Declaration) :
    (declared start declarations).Outcome (Draft.ofDeclarations start declarations).build ∧
      content <$> (Draft.ofDeclarations start declarations).build =
        (Draft.ofDeclarations start declarations).resolveNames ∧
      ∀ start' declarations',
        (declared start' declarations').rules = (declared start declarations).rules →
        (∀ p ∈ (declared start declarations).rules,
          (declared start' declarations').Mixes p ↔ (declared start declarations).Mixes p) →
        ∀ e, (Draft.ofDeclarations start' declarations').build = .error e ↔
          (Draft.ofDeclarations start declarations).build = .error e := by
  refine ⟨?_, Draft.map_build_eq_resolveNames _, fun start' declarations' hrules hmixes e ↦ ?_⟩
  · rw [Draft.ofDeclarations_eq]
    exact Draft.outcome_build _
  · rw [Draft.ofDeclarations_eq, Draft.ofDeclarations_eq]
    exact Draft.build_eq_error_congr hrules hmixes

/-- A rule without symbols comes before one that is repeated. -/
theorem build_outcome_two_faults :
    let declarations : List Declaration :=
      [.rule "S" ["A"], .rule "A" [], .rule "S" ["A"], .word "x" "a"]
    let others : List Declaration :=
      [.word "x" "b", .word "x" "b", .start "T", .rule "S" ["A"], .rule "A" [], .rule "S" ["A"]]
    (declared "S" declarations).Outcome (Draft.ofDeclarations "S" declarations).build ∧
      content <$> (Draft.ofDeclarations "S" declarations).build =
        (Draft.ofDeclarations "S" declarations).resolveNames ∧
      (declared "S" others).rules = (declared "S" declarations).rules ∧
      (∀ p ∈ (declared "S" declarations).rules,
        (declared "S" others).Mixes p ↔ (declared "S" declarations).Mixes p) ∧
      (∀ e, (Draft.ofDeclarations "S" others).build = .error e ↔
        (Draft.ofDeclarations "S" declarations).build = .error e) ∧
      (Draft.ofDeclarations "S" others).build = .error (.emptyProduction "A") := by
  intro declarations others
  obtain ⟨houtcome, hnames, hothers⟩ := build_outcome "S" declarations
  have hmixes : ∀ p ∈ (declared "S" declarations).rules,
      (declared "S" others).Mixes p ↔ (declared "S" declarations).Mixes p := by
    simp [declarations, others, declared, Draft.Mixes, Declaration.productions, Declaration.entries]
  exact ⟨houtcome, hnames, rfl, hmixes, hothers "S" others rfl hmixes, rfl⟩

end Readings.Grammar
