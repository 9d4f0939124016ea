import Readings.Proofs.Grammar.Table

/-!
Building a grammar from a draft. While it goes on, rules are told apart by the numbers of their
symbols, and symbols and rules are found by number; what comes of it is said here in terms of names
alone.
-/

namespace Readings.Grammar.Draft

variable {d : Draft} {g : Grammar} {names : List String} {earlier rest : List Production}
variable {p q : Production} {r : Resolution}

/-- The rule by the numbers of its names. -/
def numbersIn (names : List String) (p : Production) : List Nat :=
  (p.lhs :: p.rhs).map (place names)

/-- The names of some rules in the order in which they are met. -/
def namesOf (rules : List Production) : List String := rules.flatMap fun p ↦ p.lhs :: p.rhs

/-- The names of the draft in the order in which they are met: the start symbol, the names in the
rules, the categories of the words. -/
def mentions (d : Draft) : List String :=
  d.start :: namesOf d.rules ++ d.words.map (·.category)

section Rules

theorem numbersIn_append (hp : p.lhs :: p.rhs ⊆ names) (more : List String) :
    numbersIn (names ++ more) p = numbersIn names p :=
  List.map_congr_left fun _ hc ↦ place_append (hp hc) more

theorem map_numbersIn (hp : p.lhs :: p.rhs ⊆ names) :
    (numbersIn names p).map (names.eraseDups[·]?) = (p.lhs :: p.rhs).map some := by
  rw [numbersIn, List.map_map]
  exact List.map_congr_left fun c hc ↦ getElem?_place (hp hc)

/-- Rules are told apart by the numbers of their symbols as they are by their names. -/
theorem numbersIn_inj (hp : p.lhs :: p.rhs ⊆ names) (hq : q.lhs :: q.rhs ⊆ names)
    (h : numbersIn names p = numbersIn names q) : p = q := by
  have hsome := (map_numbersIn hp).symm.trans ((congrArg _ h).trans (map_numbersIn hq))
  have hnames := List.map_injective_iff.2 (Option.some_injective _) hsome
  obtain ⟨hlhs, hrhs⟩ := List.cons.inj hnames
  cases p
  congr

/-- What is known of a resolution after some rules, when `names` are the names met by then. -/
structure Resolves (d : Draft) (names : List String) (rules : List Production)
    (r : Resolution) : Prop where
  symbols : r.toSymbolTable.Interns d.kindOf names
  table : r.toRuleTable.Lists names rules
  numbers : r.numbers = rules.map (numbersIn names)

/-- What a rule that is empty or repeated is reported for. -/
def faultOf (p : Production) : BuildError :=
  if p.rhs = [] then .emptyProduction p.lhs else .repeatedRule p

/-- A rule that is not empty is added unless there is one before it with the same numbers. -/
theorem Resolves.addRule_eq (h : d.Resolves names earlier r)
    (hkind : d.kindOf p.lhs = .nonterminal) (hrhs : p.rhs ≠ []) :
    ∃ table, table.Interns d.kindOf (names ++ p.lhs :: p.rhs) ∧
      d.addRule r p =
        if numbersIn (names ++ p.lhs :: p.rhs) p ∈ r.numbers then .error (.repeatedRule p)
        else .ok ⟨table, r.push (symbolOf d.kindOf (names ++ p.lhs :: p.rhs) p.lhs) p,
          r.numbers ++ [numbersIn (names ++ p.lhs :: p.rhs) p]⟩ := by
  obtain ⟨hfirst, hlhs⟩ := h.symbols.intern p.lhs
  obtain ⟨hall, hsymbols⟩ := hfirst.internAll p.rhs
  rw [← symbolOf_append (by simp) p.rhs] at hlhs
  rw [List.append_assoc, List.singleton_append, hkind] at hlhs hall hsymbols
  refine ⟨_, hall, ?_⟩
  rw [addRule, if_neg (by simpa using hrhs)]
  simp [hlhs, hsymbols, numbersIn, symbolOf, Function.comp_def]

theorem Resolves.addRule (h : d.Resolves names earlier r) (hkind : d.kindOf p.lhs = .nonterminal) :
    (p.rhs = [] ∨ p ∈ earlier) ∧ d.addRule r p = .error (faultOf p) ∨
      ¬ (p.rhs = [] ∨ p ∈ earlier) ∧ ∃ r', d.addRule r p = .ok r' ∧
        d.Resolves (names ++ p.lhs :: p.rhs) (earlier ++ [p]) r' := by
  by_cases hempty : p.rhs = []
  · exact .inl ⟨.inl hempty, by simp [Draft.addRule, faultOf, hempty]⟩
  obtain ⟨table, htable, hadd⟩ := h.addRule_eq hkind hempty
  have hsubset := List.subset_append_right names (p.lhs :: p.rhs)
  have hgrown := h.table.append_names (p.lhs :: p.rhs)
  -- the rules before it keep their numbers, so all numbers are those of names met by now
  have hnumbers : r.numbers = earlier.map (numbersIn (names ++ p.lhs :: p.rhs)) := by
    rw [h.numbers]
    exact List.map_congr_left fun q hq ↦ (numbersIn_append (h.table.subset q hq) _).symm
  have hmem : numbersIn (names ++ p.lhs :: p.rhs) p ∈ r.numbers ↔ p ∈ earlier := by
    rw [hnumbers, List.mem_map]
    constructor
    · intro hsame
      obtain ⟨q, hq, hsame⟩ := hsame
      exact numbersIn_inj (hgrown.subset q hq) hsubset hsame ▸ hq
    · exact fun hp ↦ ⟨p, hp, rfl⟩
  by_cases hold : p ∈ earlier
  · rw [if_pos (hmem.2 hold)] at hadd
    exact .inl ⟨.inr hold, by rw [hadd, faultOf, if_neg hempty]⟩
  · rw [if_neg (mt hmem.1 hold)] at hadd
    refine .inr ⟨by simp [hempty, hold], _, hadd, htable, hgrown.push hsubset, ?_⟩
    rw [hnumbers, List.map_append, List.map_singleton]

/-- Fails on the first rule that is empty or stands among those before it. -/
def checkRules (earlier : List Production) : List Production → Except BuildError Unit
  | [] => .ok ()
  | p :: rest =>
    if p.rhs = [] ∨ p ∈ earlier then .error (faultOf p) else checkRules (earlier ++ [p]) rest

theorem checkRules_eq_ok_iff :
    checkRules earlier rest = .ok () ↔ (∀ p ∈ rest, p.rhs ≠ [] ∧ p ∉ earlier) ∧ rest.Nodup := by
  induction rest generalizing earlier with
  | nil => simp [checkRules]
  | cons p rest ih =>
    rw [checkRules, List.forall_mem_cons, List.nodup_cons]
    split
    next hfault =>
      refine iff_of_false (fun h ↦ by cases h) fun h ↦ ?_
      exact hfault.elim h.1.1.1 h.1.1.2
    next hfine =>
      rw [ih, and_iff_right (not_or.1 hfine)]
      simp only [List.mem_append, List.mem_singleton, not_or]
      grind

/-- Rules are added one after another up to the first that is at fault. -/
theorem Resolves.foldlM (h : d.Resolves names earlier r)
    (hkind : ∀ p ∈ rest, d.kindOf p.lhs = .nonterminal) :
    (∃ e, checkRules earlier rest = .error e ∧ rest.foldlM d.addRule r = .error e) ∨
      checkRules earlier rest = .ok () ∧ ∃ r', rest.foldlM d.addRule r = .ok r' ∧
        d.Resolves (names ++ namesOf rest) (earlier ++ rest) r' := by
  induction rest generalizing names earlier r with
  | nil =>
    rw [namesOf, List.flatMap_nil, List.append_nil, List.append_nil]
    exact .inr ⟨rfl, r, rfl, h⟩
  | cons p rest ih =>
    obtain ⟨hp, hrest⟩ := List.forall_mem_cons.1 hkind
    rw [checkRules, List.foldlM_cons]
    obtain ⟨hfault, hadd⟩ | ⟨hfine, r', hadd, hgrown⟩ := h.addRule hp
    · rw [if_pos hfault, hadd]
      exact .inl ⟨faultOf p, rfl, rfl⟩
    · rw [if_neg hfine, hadd]
      have hsteps := ih hgrown hrest
      rw [List.append_assoc, List.append_assoc, List.singleton_append] at hsteps
      exact hsteps

end Rules

theorem foldl_addWord {kind : String → Kind} {tables : SymbolTable × WordTable}
    {words more : List LexicalEntry} (hsymbols : tables.1.Interns kind names)
    (hwords : tables.2.Lists kind names words) (hkind : ∀ w ∈ more, kind w.category = .terminal) :
    (more.foldl addWord tables).1.Interns kind (names ++ more.map (·.category)) ∧
      (more.foldl addWord tables).2.Lists kind (names ++ more.map (·.category))
        (words ++ more) := by
  induction more generalizing names words tables with
  | nil =>
    rw [List.map_nil, List.append_nil, List.append_nil]
    exact ⟨hsymbols, hwords⟩
  | cons w more ih =>
    obtain ⟨hw, hmore⟩ := List.forall_mem_cons.1 hkind
    obtain ⟨hintern, hterminal⟩ := hsymbols.intern w.category
    have hinsert := (hwords.append_names [w.category]).insert (w := w) (by simp)
    rw [hw] at hintern hterminal
    rw [← hterminal] at hinsert
    have hfirst : (addWord tables w).1.Interns kind (names ++ [w.category]) := hintern
    have hrest := ih hfirst hinsert hmore
    rw [List.append_assoc, List.append_assoc, List.singleton_append, List.singleton_append] at hrest
    exact hrest

/-- Fails as building the draft does, but tells rules apart by what they say. -/
def check (d : Draft) : Except BuildError Unit :=
  match d.rules.find? fun p ↦ d.isCategory p.lhs with
  | some p => .error (.mixedKind p.lhs)
  | none => checkRules [] d.rules

theorem check_eq_ok_iff : d.check = .ok () ↔
    (∀ p ∈ d.rules, ¬ d.isCategory p.lhs) ∧ (∀ p ∈ d.rules, p.rhs ≠ []) ∧ d.rules.Nodup := by
  rw [check]
  cases hfind : d.rules.find? fun p ↦ d.isCategory p.lhs with
  | some p =>
    have hp : d.isCategory p.lhs := by simpa using List.find?_some hfind
    exact iff_of_false (fun h ↦ by cases h) fun h ↦ h.1 p (List.mem_of_find?_eq_some hfind) hp
  | none =>
    rw [and_iff_right (List.find?_eq_none.1 hfind)]
    simp [checkRules_eq_ok_iff]

/-- What is known of a grammar that is built from the draft. -/
structure Yields (d : Draft) (g : Grammar) : Prop where
  start : g.start = d.start
  symbols : g.toSymbolTable.Interns d.kindOf d.mentions
  rules : g.toRuleTable.Lists d.mentions d.rules
  words : g.words.Lists d.kindOf d.mentions d.words

theorem kindOf_lhs (hp : p ∈ d.rules) : d.kindOf p.lhs = .nonterminal := by
  have hhead : d.isHead p.lhs := List.any_eq_true.2 ⟨p, hp, beq_self_eq_true p.lhs⟩
  simp [kindOf, hhead]

/-- If no category heads a rule, then categories are the names that are terminals. -/
theorem kindOf_eq_terminal_iff (hkinds : ∀ p ∈ d.rules, ¬ d.isCategory p.lhs) {c : String} :
    d.kindOf c = .terminal ↔ d.isCategory c := by
  constructor
  · intro h
    by_contra hn
    simp [kindOf, hn] at h
  · intro hc
    have hhead : ¬ d.isHead c := by
      intro hhead
      obtain ⟨p, hp, he⟩ := List.any_eq_true.1 hhead
      exact hkinds p hp (beq_iff_eq.1 he ▸ hc)
    simp [kindOf, hc, hhead]

/-- Building a draft fails as the check by names does, and otherwise yields what the draft says. -/
theorem build_cases (d : Draft) :
    (∃ e, d.check = .error e ∧ d.build = .error e) ∨
      d.check = .ok () ∧ ∃ g, d.build = .ok g ∧ d.Yields g := by
  rw [check, build]
  cases hfind : d.rules.find? fun p ↦ d.isCategory p.lhs with
  | some p => exact .inl ⟨_, rfl, rfl⟩
  | none =>
    have hnil : ({} : SymbolTable).Interns d.kindOf [] := SymbolTable.interns_nil
    obtain ⟨hstart, hsymbol⟩ := hnil.intern d.start
    have hbegin : d.Resolves [d.start] [] ⟨(({} : SymbolTable).intern d.start (d.kindOf d.start)).1,
        {}, []⟩ := ⟨hstart, RuleTable.lists_nil _, rfl⟩
    obtain ⟨e, hcheck, hrules⟩ | ⟨hcheck, r, hrules, hresolves⟩ :=
      hbegin.foldlM fun p ↦ kindOf_lhs
    · refine .inl ⟨e, hcheck, ?_⟩
      simp [hrules]
    · have hkinds : ∀ w ∈ d.words, d.kindOf w.category = .terminal := by
        intro w hw
        refine (kindOf_eq_terminal_iff (List.find?_eq_none.1 hfind)).2 ?_
        exact List.any_eq_true.2 ⟨w, hw, beq_self_eq_true w.category⟩
      obtain ⟨hsymbols, hwords⟩ : (d.words.foldl addWord (r.toSymbolTable, {})).1.Interns _ _ ∧ _ :=
        foldl_addWord hresolves.symbols (WordTable.lists_nil _) hkinds
      refine .inr ⟨hcheck, ⟨(d.words.foldl addWord (r.toSymbolTable, {})).1, r.toRuleTable, d.start,
        (d.words.foldl addWord (r.toSymbolTable, {})).2⟩, ?_, ?_⟩
      · simp [hrules, hsymbol, symbolOf]
      · exact ⟨rfl, hsymbols, hresolves.table.append_names _, hwords⟩

theorem yields_of_build (h : d.build = .ok g) : d.Yields g := by
  obtain ⟨e, -, herror⟩ | ⟨-, g', hok, hyields⟩ := d.build_cases
  · rw [h] at herror
    cases herror
  · rw [h] at hok
    exact Except.ok.inj hok ▸ hyields

theorem build_eq_error_iff {e : BuildError} : d.build = .error e ↔ d.check = .error e := by
  obtain ⟨e', hcheck, hbuild⟩ | ⟨hcheck, g, hbuild, -⟩ := d.build_cases
  · rw [hcheck, hbuild, Except.error.injEq, Except.error.injEq]
  · rw [hcheck, hbuild]
    exact iff_of_false (fun h ↦ by cases h) fun h ↦ by cases h

theorem exists_build_iff_check : (∃ g, d.build = .ok g) ↔ d.check = .ok () := by
  obtain ⟨e, hcheck, hbuild⟩ | ⟨hcheck, g, hbuild, -⟩ := d.build_cases
  · rw [hcheck, hbuild]
    exact iff_of_false (fun ⟨_, h⟩ ↦ by cases h) fun h ↦ by cases h
  · exact iff_of_true ⟨g, hbuild⟩ hcheck

/-- Building succeeds if and only if no category heads a rule and no rule is empty or repeated. -/
theorem exists_build_iff : (∃ g, d.build = .ok g) ↔
    (∀ p ∈ d.rules, ¬ d.isCategory p.lhs) ∧ (∀ p ∈ d.rules, p.rhs ≠ []) ∧ d.rules.Nodup :=
  exists_build_iff_check.trans check_eq_ok_iff

end Readings.Grammar.Draft
