import Readings.Proofs.Except
import Readings.Proofs.Forest.Reading
import Readings.Proofs.Meaning.Table
import Readings.Proofs.Tree.Postorder

/-!
What a model does not cover. Where its functions always succeed, a tree has a value if and only if
the model has a valuation for every leaf and a composition for every rule of the tree, and otherwise
the first gap in the order of evaluation is the result.
-/

namespace Readings

open Grammar

variable {V : Type}

namespace Model

/-- The functions in the tables of the model give a value for everything. -/
structure Total (m : Model V) : Prop where
  composes : ∀ (id : Nat) compose, m.compositions[id]? = some compose →
    ∀ k values, ∃ value, compose k values = .ok value
  values_entry : ∀ (entry : LexicalEntry) valuation, m.entries[entry]? = some valuation →
    ∀ k token, ∃ value, valuation k token = .ok value
  values_terminal : ∀ (terminal : String) valuation, m.terminals[terminal]? = some valuation →
    ∀ k token, ∃ value, valuation k token = .ok value

/-- There is a valuation for the token read as the terminal, exactly or by the terminal alone. -/
def Values (m : Model V) (token terminal : String) : Prop :=
  ⟨token, terminal⟩ ∈ m.entries ∨ terminal ∈ m.terminals

instance (m : Model V) (token terminal : String) : Decidable (m.Values token terminal) :=
  inferInstanceAs (Decidable (_ ∨ _))

/-- What the model lacks for the root of a tree. -/
def gap? (m : Model V) : Tree → Option EvalError
  | .leaf terminal token _ =>
    if m.Values token terminal then none else some (.missingEntry token terminal)
  | .node rule _ _ => if m.covers rule then none else some (.missingComposition rule.toProduction)

section Assignment

/-- What the assignment installs gives a value for everything. -/
def Assignment.Total : Assignment V → Prop
  | .rule _ compose | .remainingRules compose => ∀ k values, ∃ value, compose k values = .ok value
  | .lexical _ _ valuation => ∀ k, ∃ value, valuation k = .ok value
  | .value .. => True
  | .words _ valuation => ∀ k token, ∃ value, valuation k token = .ok value

variable {g : Grammar} {m m' : Model V}

theorem total_empty : ({} : Model V).Total where
  composes := by simp
  values_entry := by simp
  values_terminal := by simp

theorem Total.insert_composition (hm : m.Total) {compose : Composition V}
    (h : ∀ k values, ∃ value, compose k values = .ok value) (id : Nat) :
    ({ m with compositions := m.compositions.insert id compose } : Model V).Total := by
  refine { hm with composes := fun id' compose' h' ↦ ?_ }
  rw [Std.HashMap.getElem?_insert] at h'
  split at h'
  · exact Option.some.inj h' ▸ h
  · exact hm.composes id' compose' h'

theorem Total.insert_remaining (hm : m.Total) {compose : Composition V}
    (h : ∀ k values, ∃ value, compose k values = .ok value) (rules : List Rule) :
    ({ m with compositions := rules.foldl (·.insertIfNew ·.id compose) m.compositions } :
      Model V).Total := by
  refine { hm with composes := fun id compose' h' ↦ ?_ }
  rw [getElem?_foldl_insertIfNew, Option.or_eq_some_iff] at h'
  obtain hheld | ⟨-, hfilled⟩ := h'
  · exact hm.composes id compose' hheld
  · obtain ⟨-, hcompose⟩ := Option.ite_none_right_eq_some.1 hfilled
    exact Option.some.inj hcompose ▸ h

theorem Total.setEntry (hm : m.Total) {entry : LexicalEntry} {valuation : Valuation V}
    (h : ∀ k token, ∃ value, valuation k token = .ok value)
    (hset : setEntry g m entry valuation = .ok m') : m'.Total := by
  rw [Model.setEntry] at hset
  split at hset
  · cases hset
    refine { hm with values_entry := fun entry' valuation' h' ↦ ?_ }
    rw [Std.HashMap.getElem?_insert] at h'
    split at h'
    · exact Option.some.inj h' ▸ h
    · exact hm.values_entry entry' valuation' h'
  · cases hset

theorem Total.assign (hm : m.Total) {a : Assignment V} (ha : a.Total)
    (h : assign g m a = .ok m') : m'.Total := by
  cases a with
  | rule p compose =>
    rw [Model.assign] at h
    split at h
    · cases h
      exact hm.insert_composition ha _
    · cases h
  | remainingRules compose =>
    cases h
    exact hm.insert_remaining ha g.rules
  | lexical token terminal valuation => exact hm.setEntry (fun k _ ↦ ha k) h
  | value token terminal value => exact hm.setEntry (fun _ _ ↦ ⟨value, rfl⟩) h
  | words terminal valuation =>
    rw [Model.assign] at h
    split at h
    · cases h
      refine { hm with values_terminal := fun terminal' valuation' h' ↦ ?_ }
      rw [Std.HashMap.getElem?_insert] at h'
      split at h'
      · exact Option.some.inj h' ▸ ha
      · exact hm.values_terminal terminal' valuation' h'
    · cases h

theorem Total.assignAll (hm : m.Total) {assignments : List (Assignment V)}
    (h : ∀ a ∈ assignments, a.Total) : (assignAll g m assignments).1.Total := by
  induction assignments generalizing m with
  | nil => exact hm
  | cons a rest ih =>
    obtain ⟨ha, hrest⟩ := List.forall_mem_cons.1 h
    rw [Model.assignAll]
    split
    · rename_i m' hassign
      exact ih (hm.assign ha hassign) hrest
    · exact ih hm hrest

/-- A model is total if it is filled by assignments of functions that always succeed. -/
theorem total_ofAssignments {assignments : List (Assignment V)} (h : ∀ a ∈ assignments, a.Total) :
    (ofAssignments g assignments).1.Total :=
  total_empty.assignAll h

end Assignment

variable {m : Model V}

theorem isSome_valuation?_iff {token terminal : String} :
    (m.valuation? ⟨token, terminal⟩).isSome ↔ m.Values token terminal := by
  rw [valuation?, Option.isSome_or, Bool.or_eq_true, Values, Std.HashMap.mem_iff_isSome_getElem?,
    Std.HashMap.mem_iff_isSome_getElem?]

theorem Total.exists_value (hm : m.Total) {entry : LexicalEntry} {valuation : Valuation V}
    (h : m.valuation? entry = some valuation) (k : Constituent) (token : String) :
    ∃ value, valuation k token = .ok value := by
  rw [valuation?, Option.or_eq_some_iff] at h
  obtain h | ⟨-, h⟩ := h
  · exact hm.values_entry entry valuation h k token
  · exact hm.values_terminal entry.category valuation h k token

theorem leaf_eq_error_iff (hm : m.Total) {terminal token : String} {position : Nat}
    {span : Span} {e : EvalError} :
    m.interpretation.leaf ⟨terminal, span⟩ token = .error e ↔
      m.gap? (.leaf terminal token position) = some e := by
  rw [gap?, interpretation]
  dsimp only
  cases h : m.valuation? ⟨token, terminal⟩ with
  | none =>
    have hgap : ¬ m.Values token terminal := by
      rw [← isSome_valuation?_iff, h]
      exact Bool.false_ne_true
    rw [if_neg hgap, Except.error.injEq, Option.some.injEq]
  | some valuation =>
    have hvalues : m.Values token terminal := isSome_valuation?_iff.1 (h ▸ rfl)
    obtain ⟨value, hvalue⟩ := hm.exists_value h ⟨terminal, span⟩ token
    simp [hvalue, hvalues, Except.mapError]

theorem compose_eq_error_iff (hm : m.Total) (children : List Tree) {rule : Rule} {span : Span}
    {values : List V} {e : EvalError} :
    m.interpretation.compose ⟨rule.lhs, span⟩ rule values = .error e ↔
      m.gap? (.node rule span children) = some e := by
  rw [gap?, interpretation, covers, Std.HashMap.contains_eq_isSome_getElem?]
  dsimp only
  cases h : m.compositions[rule.id]? with
  | none => simp
  | some compose =>
    obtain ⟨value, hvalue⟩ := hm.composes rule.id compose h ⟨rule.lhs, span⟩ values
    simp [hvalue, Except.mapError]

theorem evaluate_eq_error_iff (hm : m.Total) {t : Tree} {e : EvalError} :
    m.interpretation.evaluate t = .error e ↔ t.postorder.findSome? m.gap? = some e := by
  induction t generalizing e with
  | leaf terminal token position =>
    rw [Interpretation.evaluate_leaf, leaf_eq_error_iff hm, Tree.postorder_leaf,
      List.findSome?_singleton]
  | node rule span children ih =>
    have hchildren : ∀ e, children.mapM m.interpretation.evaluate = .error e ↔
        (children.flatMap Tree.postorder).findSome? m.gap? = some e :=
      mapM_eq_error_iff_findSome? fun t ht e ↦ ih t ht
    rw [Interpretation.evaluate_node, bind_eq_error_iff, Tree.postorder_node,
      List.findSome?_append, List.findSome?_singleton, Option.or_eq_some_iff, hchildren,
      ← exists_eq_ok_iff_none hchildren]
    simp only [compose_eq_error_iff hm children, exists_and_right]

theorem gap?_leaf_eq_none_iff {terminal token : String} {position : Nat} :
    m.gap? (.leaf terminal token position) = none ↔ m.Values token terminal := by
  rw [gap?, ite_eq_left_iff]
  simp

theorem gap?_node_eq_none_iff {rule : Rule} {span : Span} {children : List Tree} :
    m.gap? (.node rule span children) = none ↔ m.covers rule := by
  rw [gap?, ite_eq_left_iff]
  simp

/-- A parse has no gap if all its leaves have values and it uses no rule without a composition. -/
theorem findSome?_gap?_eq_none_iff {g : Grammar} {tokens : List String} {t : Tree}
    (ht : t.Parses g tokens) :
    t.postorder.findSome? m.gap? = none ↔
      (∀ terminal token position, .leaf terminal token position ∈ t.leaves →
        m.Values token terminal) ∧
      ∀ rule ∈ g.rules, ¬ m.covers rule → ¬ t.usesRule rule.id := by
  rw [List.findSome?_eq_none_iff, Tree.leaves_eq_filter_postorder]
  constructor
  · intro h
    refine ⟨fun terminal token position hleaf ↦ ?_, fun rule _ hcovers huses ↦ hcovers ?_⟩
    · exact gap?_leaf_eq_none_iff.1 (h _ (List.mem_of_mem_filter hleaf))
    · obtain ⟨rule', span, children, hnode, hid⟩ := Tree.usesRule_iff.1 huses
      have hcovers' := gap?_node_eq_none_iff.1 (h _ hnode)
      rwa [covers, hid] at hcovers'
  · rintro ⟨hleaves, hrules⟩ part hpart
    cases part with
    | leaf terminal token position =>
      exact gap?_leaf_eq_none_iff.2
        (hleaves terminal token position (List.mem_filter.2 ⟨hpart, rfl⟩))
    | node rule span children =>
      rw [gap?_node_eq_none_iff]
      by_contra hcovers
      cases ht.of_mem_postorder hpart with
      | node mem => exact hrules rule mem hcovers (Tree.usesRule_iff.2 ⟨_, _, _, hpart, rfl⟩)

end Model

namespace Reading

theorem filter_isOk (rs : List (Reading V)) :
    rs.filter isOk = (successes rs).map fun p ↦ ⟨p.1, .ok p.2⟩ := by
  induction rs with
  | nil => rfl
  | cons r rs ih =>
    obtain ⟨t, value⟩ := r
    cases value with
    | ok value => exact congrArg (_ :: ·) ih
    | error e => exact ih

theorem filter_not_isOk (rs : List (Reading V)) :
    rs.filter (!·.isOk) = (failures rs).map fun p ↦ ⟨p.1, .error p.2⟩ := by
  induction rs with
  | nil => rfl
  | cons r rs ih =>
    obtain ⟨t, value⟩ := r
    cases value with
    | ok value => exact ih
    | error e => exact congrArg (_ :: ·) ih

end Reading

theorem Interpretation.map_tree_evaluateEach (m : Interpretation V) (trees : List Tree) :
    (m.evaluateEach trees).map (·.tree) = trees := by
  rw [evaluateEach, List.map_map]
  exact List.map_id trees

/-- Trees are evaluated each on its own. In a model whose functions always succeed, a tree of a
grammar has a value if all its leaves and rules are covered, and fails with its first gap otherwise;
the readings are split into successes and failures, each in order. -/
theorem evaluateEach_isolated (g : Grammar) (hg : g.Built) (m : Model V) (hm : m.Total)
    (trees : List Tree)
    (htrees : ∀ t ∈ trees, ∃ start tokens b f name,
      enumerate g start tokens b = .ok f ∧ t ∈ f.readings name) :
    let readings := m.interpretation.evaluateEach trees
    readings.map (·.tree) = trees ∧
      (∀ r ∈ readings, (r.isOk ↔
          (∀ terminal token position, .leaf terminal token position ∈ r.tree.leaves →
            m.Values token terminal) ∧
          ∀ rule ∈ g.rules, ¬ m.covers rule → ¬ r.tree.usesRule rule.id) ∧
        ∀ e, r.value = .error e ↔ r.tree.postorder.findSome? m.gap? = some e) ∧
      (∀ (others : List Tree) (i j : Nat), others[j]? = trees[i]? →
        (m.interpretation.evaluateEach others)[j]? = readings[i]?) ∧
      readings.filter (·.isOk) = (Reading.successes readings).map (fun p ↦ ⟨p.1, .ok p.2⟩) ∧
      readings.filter (!·.isOk) =
        (Reading.failures readings).map (fun p ↦ ⟨p.1, .error p.2⟩) := by
  intro readings
  refine ⟨m.interpretation.map_tree_evaluateEach trees, fun r hr ↦ ?_, fun others i j h ↦ ?_,
    Reading.filter_isOk readings, Reading.filter_not_isOk readings⟩
  · obtain ⟨t, ht, rfl⟩ := List.mem_map.1 hr
    obtain ⟨start, tokens, b, f, name, hf, hreading⟩ := htrees t ht
    obtain rfl := eq_forest_of_enumerate hf
    have hparses := Forest.parses_of_mem_readings hg.wellFormed hreading
    have herror (e : EvalError) := Model.evaluate_eq_error_iff hm (t := t) (e := e)
    refine ⟨?_, herror⟩
    rw [← Model.findSome?_gap?_eq_none_iff hparses, ← exists_eq_ok_iff_none herror, Reading.isOk]
    cases m.interpretation.evaluate t with
    | ok value => exact iff_of_true rfl ⟨value, rfl⟩
    | error e => exact iff_of_false nofun nofun
  · rw [Interpretation.evaluateEach, List.getElem?_map, h, ← List.getElem?_map]
    rfl

/-- Neither the words nor two of the rules are covered, so that the trees have several gaps. -/
theorem evaluateEach_isolated_looping :
    let m : Model String := (Model.ofAssignments looping
      [.rule ⟨"S", ["S", "S"]⟩ fun _ values ↦ .ok (" ".intercalate values),
        .rule ⟨"A", ["a"]⟩ fun _ _ ↦ .ok "a"]).1
    let trees := (looping.forest ["x", "x", "x"]).readings "S"
    looping.Built ∧ m.Total ∧
      (∀ t ∈ trees, ∃ start tokens b f name,
        enumerate looping start tokens b = .ok f ∧ t ∈ f.readings name) ∧
      let readings := m.interpretation.evaluateEach trees
      readings.map (·.tree) = trees ∧
        (∀ r ∈ readings, (r.isOk ↔
            (∀ terminal token position, .leaf terminal token position ∈ r.tree.leaves →
              m.Values token terminal) ∧
            ∀ rule ∈ looping.rules, ¬ m.covers rule → ¬ r.tree.usesRule rule.id) ∧
          ∀ e, r.value = .error e ↔ r.tree.postorder.findSome? m.gap? = some e) ∧
        (∀ (others : List Tree) (i j : Nat), others[j]? = trees[i]? →
          (m.interpretation.evaluateEach others)[j]? = readings[i]?) ∧
        readings.filter (·.isOk) = (Reading.successes readings).map (fun p ↦ ⟨p.1, .ok p.2⟩) ∧
        readings.filter (!·.isOk) =
          (Reading.failures readings).map (fun p ↦ ⟨p.1, .error p.2⟩) := by
  intro m trees
  have hm : m.Total := Model.total_ofAssignments (by simp [Model.Assignment.Total])
  have htrees : ∀ t ∈ trees, ∃ start tokens b f name,
      enumerate looping start tokens b = .ok f ∧ t ∈ f.readings name :=
    fun t ht ↦ ⟨"S", _, _, _, "S", enumerate_unlimited (by decide), ht⟩
  exact ⟨looping_built, hm, htrees, evaluateEach_isolated looping looping_built m hm trees htrees⟩

end Readings
