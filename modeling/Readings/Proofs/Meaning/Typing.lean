import Mathlib.Data.List.Induction
import Readings.Meaning.Typing
import Readings.Proofs.Except

/-!
A tree has a value in an extensional interpretation if and only if it has a type, and the value is
what the tree means. The inductions carry what a value stands for: a function stands for a family
over entities if its values for entities stand for the members of the family, and if it has no value
for anything else.
-/

namespace Readings

namespace Ty

/-- The value stands for a sense of the type. -/
def Represents : (τ : Ty) → τ.Sense → Denotation → Prop
  | entity, name, d => d = .entity name
  | truth, p, d => ∃ b, d = .truth b ∧ (b = true ↔ p)
  | function result, f, d => d.isFunction ∧
    (∀ name, ∃ v, d.apply (.entity name) = .ok v ∧ result.Represents (f name) v) ∧
    ∀ a v, d.apply a = .ok v → ∃ name, a = .entity name

theorem Represents.admits {τ : Ty} {s : τ.Sense} {d : Denotation} (h : τ.Represents s d) :
    τ.Admits d := by
  cases τ with
  | entity =>
    obtain rfl : d = .entity s := h
    trivial
  | truth =>
    obtain ⟨b, rfl, -⟩ := h
    trivial
  | function result =>
    obtain ⟨hd, -, -⟩ := h
    cases d with
    | function f => trivial
    | entity | truth => cases hd

end Ty

namespace Extensional

variable {entries : List Entry}

theorem denotation?_ofEntries (entries : List Entry) (token : String) :
    (ofEntries entries).denotation? token = (lastSaid? entries token).map Entry.denotation := by
  induction entries using List.reverseRecOn with
  | nil => simp [ofEntries, denotation?, lastSaid?]
  | append_singleton entries e ih =>
    have hadd : (ofEntries (entries ++ [e])).denotation? token =
        if e.token = token then some e.denotation else (ofEntries entries).denotation? token := by
      simp only [ofEntries, List.foldl_append, List.foldl_cons, List.foldl_nil, denotation?, add,
        Std.HashMap.getElem?_insert, beq_iff_eq]
    rw [hadd, ih, lastSaid?, lastSaid?, List.reverse_append, List.reverse_singleton,
      List.singleton_append, List.find?_cons]
    by_cases h : e.token = token
    · simp [h]
    · simp [h, beq_eq_false_iff_ne.2 h]

theorem mem_of_lastSaid? {token : String} {e : Entry} (h : lastSaid? entries token = some e) :
    e ∈ entries ∧ e.token = token :=
  ⟨List.mem_reverse.1 (List.mem_of_find?_eq_some h), by simpa using List.find?_some h⟩

namespace Entry

/-- No function is said of the word beyond predicates and relations. -/
def IsPlain : Entry → Prop
  | denotes _ d => d.isFunction = false
  | _ => True

theorem type?_eq_some_iff {e : Entry} {τ : Ty} : e.type? = some τ ↔ ∃ s, e.Means τ s := by
  constructor
  · intro h
    cases e with
    | entity => cases h; exact ⟨_, .entity⟩
    | predicate => cases h; exact ⟨_, .predicate⟩
    | relation => cases h; exact ⟨_, .relation⟩
    | denotes token d =>
      cases d with
      | entity => cases h; exact ⟨_, .namedEntity⟩
      | truth => cases h; exact ⟨_, .truth⟩
      | function => cases h
  · intro h
    obtain ⟨s, h⟩ := h
    cases h <;> rfl

theorem IsPlain.exists_type {e : Entry} (h : e.IsPlain) : ∃ τ, e.type? = some τ := by
  cases e with
  | entity | predicate | relation => exact ⟨_, rfl⟩
  | denotes token d =>
    cases d with
    | entity | truth => exact ⟨_, rfl⟩
    | function => cases h

/-- A predicate stands for membership and a relation, given its object, for the subjects that are
paired with it. Neither has a value for anything but an entity. -/
theorem Means.represents {e : Entry} {τ : Ty} {s : τ.Sense} (h : e.Means τ s) :
    τ.Represents s e.denotation := by
  cases h with
  | entity => rfl
  | namedEntity => rfl
  | truth => exact ⟨_, rfl, Iff.rfl⟩
  | @predicate token members =>
    refine ⟨rfl, fun name ↦ ⟨_, rfl, _, rfl, List.contains_iff_mem⟩, fun a v h ↦ ?_⟩
    cases a with
    | entity name => exact ⟨name, rfl⟩
    | truth | function => cases h
  | @relation token pairs =>
    refine ⟨rfl, fun object ↦ ⟨_, rfl, rfl, fun subject ↦ ?_, fun a v h ↦ ?_⟩, fun a v h ↦ ?_⟩
    · exact ⟨_, rfl, _, rfl, List.contains_iff_mem⟩
    all_goals
      cases a with
      | entity name => exact ⟨name, rfl⟩
      | truth | function => cases h

end Entry

theorem evaluate_leaf_eq_ok_iff {terminal token : String} {position : Nat} {d : Denotation} :
    (ofEntries entries).interpretation.evaluate (.leaf terminal token position) = .ok d ↔
      ∃ e, lastSaid? entries token = some e ∧ e.denotation = d := by
  rw [Interpretation.evaluate_leaf, interpretation]
  simp only [denotation?_ofEntries]
  cases lastSaid? entries token with
  | none => exact iff_of_false nofun nofun
  | some e => simp

theorem evaluate_node_eq_ok_iff {m : Extensional} {rule : Rule} {span : Span} {ts : List Tree}
    {d : Denotation} :
    m.interpretation.evaluate (.node rule span ts) = .ok d ↔
      ∃ ds, List.Forall₂ (fun t d ↦ m.interpretation.evaluate t = .ok d) ts ds ∧
        combine ds = .ok d := by
  rw [Interpretation.evaluate_node, bind_eq_ok_iff]
  simp only [mapM_eq_ok_iff, interpretation, mapError_eq_ok_iff]

theorem combine_function_left {f : Denotation} (hf : f.isFunction) (name : String) :
    combine [f, .entity name] = f.apply (.entity name) := by
  cases f with
  | function => rfl
  | entity | truth => cases hf

theorem combine_function_right {f : Denotation} (hf : f.isFunction) (name : String) :
    combine [.entity name, f] = f.apply (.entity name) := by
  cases f with
  | function => rfl
  | entity | truth => cases hf

/-- What two values are combined to is a value of one of them for the other. -/
theorem apply_of_combine {left right d : Denotation} (h : combine [left, right] = .ok d) :
    left.apply right = .ok d ∨ right.apply left = .ok d := by
  cases hl : left.isFunction <;> cases hr : right.isFunction <;> simp [combine, hl, hr] at h
  · exact .inr h
  · exact .inl h

theorem length_of_combine {ds : List Denotation} {d : Denotation} (h : combine ds = .ok d) :
    (∃ only, ds = [only]) ∨ ∃ left right, ds = [left, right] := by
  match ds with
  | [only] => exact .inl ⟨only, rfl⟩
  | [left, right] => exact .inr ⟨left, right, rfl⟩
  | [] | _ :: _ :: _ :: _ => cases h

theorem Means.exists_value {t : Tree} {τ : Ty} {s : τ.Sense} (h : Means entries t τ s) :
    ∃ d, (ofEntries entries).interpretation.evaluate t = .ok d ∧ τ.Represents s d := by
  induction h with
  | leaf said sense => exact ⟨_, evaluate_leaf_eq_ok_iff.2 ⟨_, said, rfl⟩, sense.represents⟩
  | only _ ih =>
    obtain ⟨d, hd, hs⟩ := ih
    exact ⟨d, evaluate_node_eq_ok_iff.2 ⟨[d], .cons hd .nil, rfl⟩, hs⟩
  | functionLeft _ _ ihf iha =>
    obtain ⟨f, hf, hfunction, hvalue, -⟩ := ihf
    obtain ⟨a, ha, rfl⟩ := iha
    obtain ⟨v, hv, hs⟩ := hvalue _
    have hpair := (combine_function_left hfunction _).trans hv
    exact ⟨v, evaluate_node_eq_ok_iff.2 ⟨_, .cons hf (.cons ha .nil), hpair⟩, hs⟩
  | functionRight _ _ iha ihf =>
    obtain ⟨f, hf, hfunction, hvalue, -⟩ := ihf
    obtain ⟨a, ha, rfl⟩ := iha
    obtain ⟨v, hv, hs⟩ := hvalue _
    have hpair := (combine_function_right hfunction _).trans hv
    exact ⟨v, evaluate_node_eq_ok_iff.2 ⟨_, .cons ha (.cons hf .nil), hpair⟩, hs⟩

/-- Only what stands for a function has a value for something, and only for an entity. -/
theorem exists_of_apply {τ σ : Ty} {s : τ.Sense} {u : σ.Sense} {f a d : Denotation}
    (hf : τ.Represents s f) (ha : σ.Represents u a) (h : f.apply a = .ok d) :
    ∃ (result : Ty) (g : String → result.Sense) (name : String),
      (⟨τ, s⟩ : Σ τ : Ty, τ.Sense) = ⟨.function result, g⟩ ∧
        (⟨σ, u⟩ : Σ τ : Ty, τ.Sense) = ⟨.entity, name⟩ ∧ result.Represents (g name) d := by
  cases τ with
  | entity =>
    obtain rfl : f = .entity s := hf
    cases h
  | truth =>
    obtain ⟨b, rfl, -⟩ := hf
    cases h
  | function result =>
    obtain ⟨-, hvalue, honly⟩ := hf
    obtain ⟨name, rfl⟩ := honly a d h
    obtain ⟨v, hv, hs⟩ := hvalue name
    obtain rfl : v = d := Except.ok.inj (hv.symm.trans h)
    cases σ with
    | entity =>
      obtain rfl : name = u := Denotation.entity.inj ha
      exact ⟨result, s, name, rfl, rfl, hs⟩
    | truth =>
      obtain ⟨b, hb, -⟩ := ha
      cases hb
    | function => cases ha.1

theorem exists_means_of_evaluate (hplain : ∀ e ∈ entries, e.IsPlain) {t : Tree} {d : Denotation}
    (h : (ofEntries entries).interpretation.evaluate t = .ok d) :
    ∃ τ s, Means entries t τ s ∧ τ.Represents s d := by
  induction t generalizing d with
  | leaf terminal token position =>
    obtain ⟨e, said, rfl⟩ := evaluate_leaf_eq_ok_iff.1 h
    obtain ⟨τ, hτ⟩ := (hplain e (mem_of_lastSaid? said).1).exists_type
    obtain ⟨s, hs⟩ := Entry.type?_eq_some_iff.1 hτ
    exact ⟨τ, s, .leaf said hs, hs.represents⟩
  | node rule span children ih =>
    obtain ⟨ds, hds, hd⟩ := evaluate_node_eq_ok_iff.1 h
    obtain ⟨only, rfl⟩ | ⟨left, right, rfl⟩ := length_of_combine hd
    · obtain ⟨t, _, ht, hnil, rfl⟩ := List.forall₂_cons_right_iff.1 hds
      obtain rfl := List.forall₂_nil_right_iff.1 hnil
      obtain ⟨τ, s, hs, hrep⟩ := ih t List.mem_cons_self ht
      obtain rfl : only = d := Except.ok.inj hd
      exact ⟨τ, s, .only hs, hrep⟩
    · obtain ⟨l, _, hl, hrest, rfl⟩ := List.forall₂_cons_right_iff.1 hds
      obtain ⟨r, _, hr, hnil, rfl⟩ := List.forall₂_cons_right_iff.1 hrest
      obtain rfl := List.forall₂_nil_right_iff.1 hnil
      obtain ⟨τ, s, hs, hrepl⟩ := ih l (by simp) hl
      obtain ⟨σ, u, hu, hrepr⟩ := ih r (by simp) hr
      obtain happly | happly := apply_of_combine hd
      · obtain ⟨result, g, name, hfunction, hargument, hrep⟩ := exists_of_apply hrepl hrepr happly
        cases hfunction
        cases hargument
        exact ⟨result, g name, .functionLeft hs hu, hrep⟩
      · obtain ⟨result, g, name, hfunction, hargument, hrep⟩ := exists_of_apply hrepr hrepl happly
        cases hfunction
        cases hargument
        exact ⟨result, g name, .functionRight hs hu, hrep⟩

theorem hasType_iff_exists_means {t : Tree} {τ : Ty} :
    HasType entries t τ ↔ ∃ s, Means entries t τ s := by
  constructor
  · intro h
    induction h with
    | leaf said type =>
      obtain ⟨s, hs⟩ := Entry.type?_eq_some_iff.1 type
      exact ⟨s, .leaf said hs⟩
    | only _ ih =>
      obtain ⟨s, hs⟩ := ih
      exact ⟨s, .only hs⟩
    | functionLeft _ _ ihf iha =>
      obtain ⟨f, hf⟩ := ihf
      obtain ⟨name, hname⟩ := iha
      exact ⟨_, .functionLeft hf hname⟩
    | functionRight _ _ iha ihf =>
      obtain ⟨f, hf⟩ := ihf
      obtain ⟨name, hname⟩ := iha
      exact ⟨_, .functionRight hname hf⟩
  · intro h
    obtain ⟨s, h⟩ := h
    induction h with
    | leaf said sense => exact .leaf said (Entry.type?_eq_some_iff.2 ⟨_, sense⟩)
    | only _ ih => exact .only ih
    | functionLeft _ _ ihf iha => exact .functionLeft ihf iha
    | functionRight _ _ iha ihf => exact .functionRight iha ihf

theorem HasType.exists_entry {t : Tree} {τ : Ty} (h : HasType entries t τ) :
    ∀ token ∈ t.tokens, ∃ e ∈ entries, e.token = token := by
  induction h with
  | leaf said =>
    intro token htoken
    obtain rfl := List.mem_singleton.1 htoken
    exact ⟨_, mem_of_lastSaid? said⟩
  | only _ ih => simpa [Tree.tokens] using ih
  | functionLeft _ _ ihl ihr | functionRight _ _ ihl ihr =>
    intro token htoken
    simp only [Tree.tokens, Tree.fold_node, List.map_cons, List.map_nil, List.flatten_cons,
      List.flatten_nil, List.append_nil, List.mem_append] at htoken
    exact htoken.elim (ihl token) (ihr token)

/-- If no function is said of a word beyond predicates and relations, then a tree has a value if and
only if all its tokens have an entry and it has a type. The value is of the kind of the type, and a
truth value is that of the proposition that the tree means. -/
theorem typed_iff_evaluates (entries : List Entry) (h : ∀ e ∈ entries, e.IsPlain) (t : Tree) :
    ((∃ d, (ofEntries entries).interpretation.evaluate t = .ok d) ↔
      (∀ token ∈ t.tokens, ∃ e ∈ entries, e.token = token) ∧ ∃ τ, HasType entries t τ) ∧
    (∀ τ d, HasType entries t τ → (ofEntries entries).interpretation.evaluate t = .ok d →
      τ.Admits d) ∧
    (∀ τ, HasType entries t τ ↔ ∃ s, Means entries t τ s) ∧
    ∀ p, Means entries t .truth p → ∃ b,
      (ofEntries entries).interpretation.evaluate t = .ok (.truth b) ∧ (b = true ↔ p) := by
  refine ⟨⟨?_, ?_⟩, ?_, fun τ ↦ hasType_iff_exists_means, ?_⟩
  · intro hvalue
    obtain ⟨d, hd⟩ := hvalue
    obtain ⟨τ, s, hs, -⟩ := exists_means_of_evaluate h hd
    have htype := hasType_iff_exists_means.2 ⟨s, hs⟩
    exact ⟨htype.exists_entry, τ, htype⟩
  · intro htyped
    obtain ⟨-, τ, htype⟩ := htyped
    obtain ⟨s, hs⟩ := hasType_iff_exists_means.1 htype
    obtain ⟨d, hd, -⟩ := hs.exists_value
    exact ⟨d, hd⟩
  · intro τ d htype hd
    obtain ⟨s, hs⟩ := hasType_iff_exists_means.1 htype
    obtain ⟨d', hd', hrep⟩ := hs.exists_value
    obtain rfl : d' = d := Except.ok.inj (hd'.symm.trans hd)
    exact hrep.admits
  · intro p hp
    obtain ⟨d, hd, b, rfl, hb⟩ := hp.exists_value
    exact ⟨b, hd, hb⟩

theorem typed_iff_evaluates_saw :
    let entries : List Entry := [.entity "al" "b", .relation "saw" [("a", "b")],
      .denotes "bo" (.entity "b"), .entity "al" "a"]
    let t : Tree := .node ⟨⟨"S", ["N", "VP"]⟩, 0⟩ ⟨0, 3⟩ [.leaf "N" "al" 0,
      .node ⟨⟨"VP", ["V", "N"]⟩, 1⟩ ⟨1, 3⟩ [.leaf "V" "saw" 1, .leaf "N" "bo" 2]]
    (∀ e ∈ entries, e.IsPlain) ∧
      ((∃ d, (ofEntries entries).interpretation.evaluate t = .ok d) ↔
        (∀ token ∈ t.tokens, ∃ e ∈ entries, e.token = token) ∧ ∃ τ, HasType entries t τ) ∧
      (∀ τ d, HasType entries t τ → (ofEntries entries).interpretation.evaluate t = .ok d →
        τ.Admits d) ∧
      (∀ τ, HasType entries t τ ↔ ∃ s, Means entries t τ s) ∧
      ∀ p, Means entries t .truth p → ∃ b,
        (ofEntries entries).interpretation.evaluate t = .ok (.truth b) ∧ (b = true ↔ p) :=
  ⟨by simp [Entry.IsPlain, Denotation.isFunction],
    typed_iff_evaluates _ (by simp [Entry.IsPlain, Denotation.isFunction]) _⟩

end Extensional

end Readings
