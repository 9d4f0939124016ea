import Readings.Meaning.Model
import Readings.Proofs.Grammar.Representation
import Readings.Proofs.Grammar.Variant

/-!
What assignments make of a model. The tables are filled in different ways: a composition for one
rule takes the place of what composed by the rule before, one for all remaining rules does not; a
valuation takes the place of the one before, and those of single entries come before those of whole
terminals. In the end every place holds what was last put there or, failing that, what it was first
filled with, and an assignment that is refused might as well not have been made.
-/

namespace Readings

open Grammar

section Fold

variable {σ α β : Type} {step : σ → α → σ} (look : σ → Option β) (set : α → Option β)

/-- A place that some actions set, and that others fill if it is empty, holds in the end what was
set last, or what it held before, or what it was first filled with. -/
theorem look_foldl (fill : α → Option β)
    (h : ∀ s a, look (step s a) = (set a).or ((look s).or (fill a))) (s : σ) (actions : List α) :
    look (actions.foldl step s) =
      (actions.filterMap set).getLast?.or ((look s).or (actions.filterMap fill).head?) := by
  -- what the first action sets or fills is what the place held before the others
  induction actions generalizing s with
  | nil => simp
  | cons a actions ih =>
    rw [List.foldl_cons, ih, h, List.filterMap_cons, List.filterMap_cons]
    cases set a <;> cases fill a <;> simp [List.getLast?_cons]

theorem look_foldl_set (h : ∀ s a, look (step s a) = (set a).or (look s)) (s : σ)
    (actions : List α) :
    look (actions.foldl step s) = (actions.filterMap set).getLast?.or (look s) := by
  simpa using look_foldl look set (fun _ ↦ none) (by simpa using h) s actions

end Fold

namespace Grammar

variable {g : Grammar}

theorem rule?_eq_none_iff (hg : g.Built) {p : Production} :
    g.rule? p = none ↔ p ∉ g.rules.map (·.toProduction) := by
  simp [hg.wellFormed.rule?_eq]

end Grammar

namespace Model

variable {V : Type} {g : Grammar}

namespace Assignment

/-- What is to compose by this rule. -/
def forRule? (rule : Rule) : Assignment V → Option (Composition V)
  | .rule p compose => if p = rule.toProduction then some compose else none
  | _ => none

/-- What is to compose by every rule that nothing composes by yet. -/
def forRemaining? : Assignment V → Option (Composition V)
  | .remainingRules compose => some compose
  | _ => none

/-- What is to value the token read as the terminal. -/
def forToken? (entry : LexicalEntry) : Assignment V → Option (Valuation V)
  | .lexical token terminal valuation =>
    if ⟨token, terminal⟩ = entry then some fun k _ ↦ valuation k else none
  | .value token terminal v =>
    if ⟨token, terminal⟩ = entry then some fun _ _ ↦ .ok v else none
  | _ => none

/-- What is to value every token of the terminal that has no entry of its own. -/
def forTerminal? (terminal : String) : Assignment V → Option (Valuation V)
  | .words terminal' valuation => if terminal' = terminal then some valuation else none
  | _ => none

/-- Why the grammar refuses an assignment: it has no such rule, or no such terminal. -/
def refusal? (g : Grammar) : Assignment V → Option ModelError
  | .rule p _ => if p ∈ g.rules.map (·.toProduction) then none else some (.unknownRule p)
  | .remainingRules _ => none
  | .lexical _ terminal _ | .value _ terminal _ | .words terminal _ =>
    if terminal ∈ g.terminals then none else some (.unknownTerminal terminal)

end Assignment

/-- How a model composes and values that these assignments have been made to, one after another. -/
structure Follows (g : Grammar) (assignments : List (Assignment V)) (m : Model V) : Prop where
  compose : ∀ rule ∈ g.rules, ∀ k values, m.interpretation.compose k rule values =
    match (assignments.filterMap (·.forRule? rule)).getLast?.or
      (assignments.filterMap (·.forRemaining?)).head? with
    | some compose => (compose k values).mapError (.nodeFailure rule.toProduction)
    | none => .error (.missingComposition rule.toProduction)
  leaf : ∀ k token, k.category ∈ g.terminals → m.interpretation.leaf k token =
    match (assignments.filterMap (·.forToken? ⟨token, k.category⟩)).getLast?.or
      (assignments.filterMap (·.forTerminal? k.category)).getLast? with
    | some valuation => (valuation k token).mapError (.leafFailure k.category token)
    | none => .error (.missingEntry token k.category)

section Step

variable {rule : Rule} {a : Assignment V}

/-- The model after an assignment. One that is refused leaves it as it is. -/
def step (g : Grammar) (m : Model V) (a : Assignment V) : Model V := (assign g m a).toOption.getD m

theorem assign_eq_error_iff (hg : g.Built) {m : Model V} {e : ModelError} :
    assign g m a = .error e ↔ a.refusal? g = some e := by
  cases a with
  | rule p compose =>
    rw [assign, Assignment.refusal?]
    cases hp : g.rule? p with
    | none => rw [if_neg ((rule?_eq_none_iff hg).1 hp), Except.error.injEq, Option.some.injEq]
    | some r =>
      have hknown : p ∈ g.rules.map (·.toProduction) := by
        by_contra hunknown
        rw [(rule?_eq_none_iff hg).2 hunknown] at hp
        cases hp
      simp [hknown]
  | remainingRules => simp [assign, Assignment.refusal?]
  | lexical _ terminal | value _ terminal | words terminal =>
    by_cases hterminal : g.isTerminal terminal <;>
      simp [assign, setEntry, Assignment.refusal?, hg.wellFormed.mem_terminals_iff, hterminal]

theorem step_of_refused (hg : g.Built) (h : (a.refusal? g).isSome) (m : Model V) :
    step g m a = m := by
  obtain ⟨e, he⟩ := Option.isSome_iff_exists.1 h
  rw [step, (assign_eq_error_iff hg).2 he]
  rfl

theorem getElem?_foldl_insertIfNew {β : Type} (rules : List Rule) (table : Std.HashMap Nat β)
    (b : β) (id : Nat) :
    (rules.foldl (·.insertIfNew ·.id b) table)[id]? =
      table[id]?.or (if id ∈ rules.map (·.id) then some b else none) := by
  induction rules generalizing table with
  | nil => simp
  | cons rule rules ih =>
    rw [List.foldl_cons, ih, Std.HashMap.getElem?_insertIfNew]
    by_cases hid : rule.id = id
    · subst hid
      cases h : table[rule.id]? <;> simp [Std.HashMap.mem_iff_isSome_getElem?, h]
    · simp [hid, Ne.symm hid]

theorem getElem?_compositions_step (hg : g.Built) (hr : rule ∈ g.rules) (m : Model V)
    (a : Assignment V) :
    (step g m a).compositions[rule.id]? =
      (a.forRule? rule).or (m.compositions[rule.id]?.or a.forRemaining?) := by
  cases a with
  | rule p compose =>
    simp only [step, assign, Assignment.forRule?, Assignment.forRemaining?]
    cases hp : g.rule? p with
    | none =>
      have hne : p ≠ rule.toProduction := by
        rintro rfl
        exact (rule?_eq_none_iff hg).1 hp (List.mem_map_of_mem hr)
      simp [hne, Except.toOption]
    | some r =>
      rw [hg.wellFormed.rule?_eq] at hp
      have hmem : r ∈ g.rules := List.mem_of_find?_eq_some hp
      obtain rfl : r.toProduction = p := by simpa using List.find?_some hp
      -- the table goes by numbers and the assignment by names, which tell the same rules apart
      have hid : r.id = rule.id ↔ r.toProduction = rule.toProduction :=
        ⟨fun h ↦ congrArg _ (hg.wellFormed.rule_ext hmem hr h),
          fun h ↦ congrArg _ (hg.rule_ext hmem hr h)⟩
      simp only [Except.toOption, Option.getD_some, Std.HashMap.getElem?_insert, beq_iff_eq, hid]
      split <;> simp
  | remainingRules compose =>
    have hid : rule.id ∈ g.rules.map (·.id) := List.mem_map_of_mem hr
    simp only [step, assign, Except.toOption, Option.getD_some, getElem?_foldl_insertIfNew,
      if_pos hid]
    rfl
  | lexical _ terminal | value _ terminal | words terminal =>
    by_cases hterminal : g.isTerminal terminal <;>
      simp [step, assign, setEntry, hterminal, Except.toOption, Assignment.forRule?,
        Assignment.forRemaining?]

theorem getElem?_entries_setEntry {entry entry' : LexicalEntry}
    (hterminal : g.isTerminal entry.category) (m : Model V) (valuation : Valuation V) :
    ((setEntry g m entry' valuation).toOption.getD m).entries[entry]? =
      (if entry' = entry then some valuation else none).or m.entries[entry]? := by
  by_cases hsame : entry' = entry
  · subst hsame
    simp [setEntry, hterminal, Except.toOption]
  · by_cases hterminal' : g.isTerminal entry'.category <;>
      simp [setEntry, hterminal', Except.toOption, Std.HashMap.getElem?_insert, hsame]

theorem getElem?_entries_step {entry : LexicalEntry} (hterminal : g.isTerminal entry.category)
    (m : Model V) (a : Assignment V) :
    (step g m a).entries[entry]? = (a.forToken? entry).or m.entries[entry]? := by
  cases a with
  | rule p compose =>
    cases hp : g.rule? p <;> simp [step, assign, hp, Except.toOption, Assignment.forToken?]
  | remainingRules => rfl
  | lexical token terminal valuation => exact getElem?_entries_setEntry hterminal m _
  | value token terminal v => exact getElem?_entries_setEntry hterminal m _
  | words terminal =>
    by_cases hterminal : g.isTerminal terminal <;>
      simp [step, assign, hterminal, Except.toOption, Assignment.forToken?]

theorem getElem?_terminals_step {terminal : String} (hterminal : g.isTerminal terminal)
    (m : Model V) (a : Assignment V) :
    (step g m a).terminals[terminal]? = (a.forTerminal? terminal).or m.terminals[terminal]? := by
  cases a with
  | rule p compose =>
    cases hp : g.rule? p <;> simp [step, assign, hp, Except.toOption, Assignment.forTerminal?]
  | remainingRules => rfl
  | lexical _ terminal' | value _ terminal' =>
    by_cases hterminal' : g.isTerminal terminal' <;>
      simp [step, assign, setEntry, hterminal', Except.toOption, Assignment.forTerminal?]
  | words terminal' valuation =>
    by_cases hsame : terminal' = terminal
    · subst hsame
      simp [step, assign, hterminal, Except.toOption, Assignment.forTerminal?]
    · by_cases hterminal' : g.isTerminal terminal' <;>
        simp [step, assign, hterminal', Except.toOption, Assignment.forTerminal?,
          Std.HashMap.getElem?_insert, hsame]

end Step

section Run

theorem assignAll_eq (hg : g.Built) (m : Model V) (assignments : List (Assignment V)) :
    assignAll g m assignments =
      (assignments.foldl (step g) m, assignments.map (·.refusal? g)) := by
  induction assignments generalizing m with
  | nil => rfl
  | cons a assignments ih =>
    rw [assignAll, List.foldl_cons, List.map_cons, step]
    cases ha : assign g m a with
    | ok m' =>
      have hnone : a.refusal? g = none := by
        rw [Option.eq_none_iff_forall_ne_some]
        intro e he
        rw [(assign_eq_error_iff hg).2 he] at ha
        cases ha
      simp [ih, hnone, Except.toOption]
    | error e => simp [ih, (assign_eq_error_iff hg).1 ha, Except.toOption]

theorem ofAssignments_eq (hg : g.Built) (assignments : List (Assignment V)) :
    ofAssignments g assignments =
      (assignments.foldl (step g) {}, assignments.map (·.refusal? g)) :=
  assignAll_eq hg {} assignments

theorem getElem?_compositions_ofAssignments (hg : g.Built) {rule : Rule} (hr : rule ∈ g.rules)
    (assignments : List (Assignment V)) :
    (ofAssignments g assignments).1.compositions[rule.id]? =
      (assignments.filterMap (·.forRule? rule)).getLast?.or
        (assignments.filterMap (·.forRemaining?)).head? := by
  have htable := look_foldl (fun m : Model V ↦ m.compositions[rule.id]?) (·.forRule? rule)
    (·.forRemaining?) (getElem?_compositions_step hg hr) {} assignments
  rw [Std.HashMap.getElem?_empty, Option.none_or] at htable
  rw [ofAssignments_eq hg]
  exact htable

theorem getElem?_entries_ofAssignments (hg : g.Built) {entry : LexicalEntry}
    (hterminal : g.isTerminal entry.category) (assignments : List (Assignment V)) :
    (ofAssignments g assignments).1.entries[entry]? =
      (assignments.filterMap (·.forToken? entry)).getLast? := by
  have htable := look_foldl_set (fun m : Model V ↦ m.entries[entry]?) (·.forToken? entry)
    (getElem?_entries_step hterminal) {} assignments
  rw [Std.HashMap.getElem?_empty, Option.or_none] at htable
  rw [ofAssignments_eq hg]
  exact htable

theorem getElem?_terminals_ofAssignments (hg : g.Built) {terminal : String}
    (hterminal : g.isTerminal terminal) (assignments : List (Assignment V)) :
    (ofAssignments g assignments).1.terminals[terminal]? =
      (assignments.filterMap (·.forTerminal? terminal)).getLast? := by
  have htable := look_foldl_set (fun m : Model V ↦ m.terminals[terminal]?) (·.forTerminal? terminal)
    (getElem?_terminals_step hterminal) {} assignments
  rw [Std.HashMap.getElem?_empty, Option.or_none] at htable
  rw [ofAssignments_eq hg]
  exact htable

theorem follows_ofAssignments (hg : g.Built) (assignments : List (Assignment V)) :
    Follows g assignments (ofAssignments g assignments).1 where
  compose rule hr k values := by
    rw [interpretation]
    dsimp only
    rw [getElem?_compositions_ofAssignments hg hr]
    split <;> rename_i h <;> simp only [h]
  leaf k token hterminal := by
    rw [interpretation]
    dsimp only
    rw [hg.wellFormed.mem_terminals_iff] at hterminal
    rw [valuation?, getElem?_entries_ofAssignments hg hterminal,
      getElem?_terminals_ofAssignments hg hterminal]
    split <;> rename_i h <;> simp only [h]

theorem ofAssignments_of_refused (hg : g.Built) {a : Assignment V} (h : (a.refusal? g).isSome)
    (before after : List (Assignment V)) :
    (ofAssignments g (before ++ a :: after)).1 = (ofAssignments g (before ++ after)).1 := by
  simp only [ofAssignments_eq hg, List.foldl_append, List.foldl_cons, step_of_refused hg h]

end Run

/-- A model composes by a rule as was last assigned to this rule or else first to all remaining
ones, and it values a token as was last assigned to its entry or else to its terminal. Assignments
are refused if and only if they name a rule or a terminal that the grammar does not have, and those
that are refused change nothing. -/
theorem ofAssignments_outcome (g : Grammar) (hg : g.Built) (assignments : List (Assignment V)) :
    Follows g assignments (ofAssignments g assignments).1 ∧
      (ofAssignments g assignments).2 = assignments.map (·.refusal? g) ∧
      (∀ (m : Model V) (a : Assignment V) (e : ModelError),
        assign g m a = .error e ↔ a.refusal? g = some e) ∧
      ∀ before a after, assignments = before ++ a :: after → (a.refusal? g).isSome →
        (ofAssignments g assignments).1 = (ofAssignments g (before ++ after)).1 := by
  refine ⟨follows_ofAssignments hg assignments, ?_, fun _ _ _ ↦ assign_eq_error_iff hg, ?_⟩
  · rw [ofAssignments_eq hg]
  · rintro before a after rfl h
    exact ofAssignments_of_refused hg h before after

/-- The first assignment names no rule and the last one no terminal. -/
theorem ofAssignments_outcome_looping :
    let assignments : List (Assignment String) :=
      [.rule ⟨"S", ["Q"]⟩ fun _ _ ↦ .ok "none", .words "a" fun _ token ↦ .ok token,
        .remainingRules fun _ values ↦ .ok (" ".intercalate values),
        .rule ⟨"A", ["a"]⟩ fun _ _ ↦ .error "no value", .value "x" "a" "y",
        .words "S" fun _ token ↦ .ok token]
    looping.Built ∧ Follows looping assignments (ofAssignments looping assignments).1 ∧
      (ofAssignments looping assignments).2 = assignments.map (·.refusal? looping) ∧
      (∀ (m : Model String) (a : Assignment String) (e : ModelError),
        assign looping m a = .error e ↔ a.refusal? looping = some e) ∧
      (∀ before a after, assignments = before ++ a :: after → (a.refusal? looping).isSome →
        (ofAssignments looping assignments).1 = (ofAssignments looping (before ++ after)).1) ∧
      assignments.map (·.refusal? looping) =
        [some (.unknownRule ⟨"S", ["Q"]⟩), none, none, none, none,
          some (.unknownTerminal "S")] := by
  intro assignments
  obtain ⟨hfollows, herrors, hrefused, hdropped⟩ :=
    ofAssignments_outcome looping looping_built assignments
  exact ⟨looping_built, hfollows, herrors, hrefused, hdropped, by decide⟩

end Model

end Readings
