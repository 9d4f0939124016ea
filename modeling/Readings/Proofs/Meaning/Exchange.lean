import Readings.Proofs.Meaning.Typing

/-!
The order of words inside constituents does not matter to an extensional interpretation. Trees that
differ only in the order of the children of some nodes mean the same, and values that stand for one
sense cannot be told apart.
-/

namespace Readings

/-- The same entity, the same truth value, or functions that have a value for the same arguments,
where the values are alike again. -/
inductive Denotation.Alike : Denotation → Denotation → Prop
  | entity {name : String} : Alike (.entity name) (.entity name)
  | truth {value : Bool} : Alike (.truth value) (.truth value)
  | function {f g : Function}
      (fails : ∀ a, (∃ e, f.apply a = .error e) ↔ ∃ e, g.apply a = .error e)
      (values : ∀ a v w, f.apply a = .ok v → g.apply a = .ok w → Alike v w) :
      Alike (.function f) (.function g)

/-- At any number of nodes with two children the children change places. The rule of a node, what it
covers and where its words stand go along with the order. -/
inductive Tree.Exchanged : Tree → Tree → Prop
  | leaf {terminal token : String} {position position' : Nat} :
      Exchanged (.leaf terminal token position) (.leaf terminal token position')
  | kept {rule rule' : Rule} {span span' : Span} {children children' : List Tree}
      (below : List.Forall₂ Exchanged children children') :
      Exchanged (.node rule span children) (.node rule' span' children')
  | swapped {rule rule' : Rule} {span span' : Span} {left left' right right' : Tree}
      (first : Exchanged left left') (second : Exchanged right right') :
      Exchanged (.node rule span [left, right]) (.node rule' span' [right', left'])

namespace Tree.Exchanged

theorem symm {t u : Tree} (h : t.Exchanged u) : u.Exchanged t := by
  induction t generalizing u with
  | leaf =>
    cases h
    exact .leaf
  | node rule span children ih =>
    cases h with
    | kept below =>
      have hback := (List.forall₂_and_left _ _).2 ⟨fun t ht u (h : t.Exchanged u) ↦ ih t ht h, below⟩
      exact .kept (hback.imp fun t u h ↦ h.1 u h.2).flip
    | swapped first second => exact .swapped (ih _ (by simp) second) (ih _ (by simp) first)

theorem of_only {rule : Rule} {span : Span} {t u : Tree}
    (h : (Tree.node rule span [t]).Exchanged u) :
    ∃ rule' span' t', t.Exchanged t' ∧ u = .node rule' span' [t'] := by
  cases h with
  | kept below =>
    obtain ⟨t', us, ht, hnil, rfl⟩ := List.forall₂_cons_left_iff.1 below
    obtain rfl := List.forall₂_nil_left_iff.1 hnil
    exact ⟨_, _, t', ht, rfl⟩

theorem of_pair {rule : Rule} {span : Span} {left right u : Tree}
    (h : (Tree.node rule span [left, right]).Exchanged u) :
    ∃ rule' span' left' right', left.Exchanged left' ∧ right.Exchanged right' ∧
      (u = .node rule' span' [left', right'] ∨ u = .node rule' span' [right', left']) := by
  cases h with
  | kept below =>
    obtain ⟨left', us, hleft, hus, rfl⟩ := List.forall₂_cons_left_iff.1 below
    obtain ⟨right', us, hright, hnil, rfl⟩ := List.forall₂_cons_left_iff.1 hus
    obtain rfl := List.forall₂_nil_left_iff.1 hnil
    exact ⟨_, _, left', right', hleft, hright, .inl rfl⟩
  | swapped first second => exact ⟨_, _, _, _, first, second, .inr rfl⟩

end Tree.Exchanged

namespace Ty

/-- What stands for a function has no value for anything but entities. -/
theorem Represents.fails_iff {result : Ty} {s : String → result.Sense} {d : Denotation}
    (h : (function result).Represents s d) (a : Denotation) :
    (∃ e, d.apply a = .error e) ↔ ∀ name, a ≠ .entity name := by
  obtain ⟨-, hvalue, honly⟩ := h
  constructor
  · intro herror name hname
    obtain ⟨e, he⟩ := herror
    obtain ⟨v, hv, -⟩ := hvalue name
    rw [hname, hv] at he
    cases he
  · intro hother
    cases happly : d.apply a with
    | error e => exact ⟨e, rfl⟩
    | ok v =>
      obtain ⟨name, hname⟩ := honly a v happly
      exact absurd hname (hother name)

theorem Represents.alike {τ : Ty} {s : τ.Sense} {d d' : Denotation} (h : τ.Represents s d)
    (h' : τ.Represents s d') : d.Alike d' := by
  induction τ generalizing d d' with
  | entity =>
    obtain rfl : d = .entity s := h
    obtain rfl : d' = .entity s := h'
    exact .entity
  | truth =>
    obtain ⟨b, rfl, hb⟩ := h
    obtain ⟨b', rfl, hb'⟩ := h'
    obtain rfl : b = b' := Bool.eq_iff_iff.2 (hb.trans hb'.symm)
    exact .truth
  | function result ih =>
    have hfails (a : Denotation) := (h.fails_iff a).trans (h'.fails_iff a).symm
    obtain ⟨hd, hvalue, honly⟩ := h
    obtain ⟨hd', hvalue', -⟩ := h'
    cases d with
    | entity | truth => cases hd
    | function f =>
      cases d' with
      | entity | truth => cases hd'
      | function g =>
        refine .function hfails fun a v w hv hw ↦ ?_
        obtain ⟨name, rfl⟩ := honly a v hv
        obtain ⟨x, hx, hrep⟩ := hvalue name
        obtain ⟨y, hy, hrep'⟩ := hvalue' name
        obtain rfl : x = v := Except.ok.inj (hx.symm.trans hv)
        obtain rfl : y = w := Except.ok.inj (hy.symm.trans hw)
        exact ih hrep hrep'

end Ty

namespace Extensional

variable {entries : List Entry}

/-- A node means the function at the entity, whichever of the two comes first. -/
theorem Means.exchanged {t u : Tree} {τ : Ty} {s : τ.Sense} (h : Means entries t τ s)
    (htu : t.Exchanged u) : Means entries u τ s := by
  induction h generalizing u with
  | leaf said sense =>
    cases htu
    exact .leaf said sense
  | only _ ih =>
    obtain ⟨_, _, t', ht, rfl⟩ := htu.of_only
    exact .only (ih ht)
  | functionLeft _ _ ihf iha =>
    obtain ⟨_, _, f, a, hf, ha, rfl | rfl⟩ := htu.of_pair
    · exact .functionLeft (ihf hf) (iha ha)
    · exact .functionRight (iha ha) (ihf hf)
  | functionRight _ _ iha ihf =>
    obtain ⟨_, _, a, f, ha, hf, rfl | rfl⟩ := htu.of_pair
    · exact .functionRight (iha ha) (ihf hf)
    · exact .functionLeft (ihf hf) (iha ha)

/-- If one tree has a value, so has the other, and they cannot be told apart. -/
theorem exists_alike (hplain : ∀ e ∈ entries, e.IsPlain) {t u : Tree} (htu : t.Exchanged u)
    {d : Denotation} (h : (ofEntries entries).interpretation.evaluate t = .ok d) :
    ∃ d', (ofEntries entries).interpretation.evaluate u = .ok d' ∧ d.Alike d' := by
  obtain ⟨τ, s, hmeans, hd⟩ := exists_means_of_evaluate hplain h
  obtain ⟨d', hvalue, hd'⟩ := (hmeans.exchanged htu).exists_value
  exact ⟨d', hvalue, hd.alike hd'⟩

/-- If no function is said of a word beyond predicates and relations, then the order of the children
of nodes with two children does not matter to whether a tree has a value nor to which. -/
theorem evaluate_exchanged (entries : List Entry) (h : ∀ e ∈ entries, e.IsPlain) {t u : Tree}
    (htu : t.Exchanged u) :
    ((∃ d, (ofEntries entries).interpretation.evaluate t = .ok d) ↔
      ∃ d, (ofEntries entries).interpretation.evaluate u = .ok d) ∧
    ∀ d d', (ofEntries entries).interpretation.evaluate t = .ok d →
      (ofEntries entries).interpretation.evaluate u = .ok d' → d.Alike d' := by
  refine ⟨⟨?_, ?_⟩, ?_⟩
  · intro hvalue
    obtain ⟨d, hd⟩ := hvalue
    obtain ⟨d', hd', -⟩ := exists_alike h htu hd
    exact ⟨d', hd'⟩
  · intro hvalue
    obtain ⟨d', hd'⟩ := hvalue
    obtain ⟨d, hd, -⟩ := exists_alike h htu.symm hd'
    exact ⟨d, hd⟩
  · intro d d' hd hd'
    obtain ⟨v, hv, halike⟩ := exists_alike h htu hd
    obtain rfl : v = d' := Except.ok.inj (hv.symm.trans hd')
    exact halike

/-- Both the sentence and its verb phrase are turned round. -/
theorem evaluate_exchanged_saw :
    let entries : List Entry := [.entity "al" "b", .relation "saw" [("a", "b")],
      .denotes "bo" (.entity "b"), .entity "al" "a"]
    let t : Tree := .node ⟨⟨"S", ["N", "VP"]⟩, 0⟩ ⟨0, 3⟩ [.leaf "N" "al" 0,
      .node ⟨⟨"VP", ["V", "N"]⟩, 1⟩ ⟨1, 3⟩ [.leaf "V" "saw" 1, .leaf "N" "bo" 2]]
    let u : Tree := .node ⟨⟨"S", ["VP", "N"]⟩, 2⟩ ⟨0, 3⟩ [
      .node ⟨⟨"VP", ["N", "V"]⟩, 3⟩ ⟨0, 2⟩ [.leaf "N" "bo" 0, .leaf "V" "saw" 1],
      .leaf "N" "al" 2]
    (∀ e ∈ entries, e.IsPlain) ∧ t.Exchanged u ∧
      (ofEntries entries).interpretation.evaluate t = .ok (.truth true) ∧
      (ofEntries entries).interpretation.evaluate u = .ok (.truth true) := by
  intro entries t u
  have hplain : ∀ e ∈ entries, e.IsPlain := by
    simp [entries, Entry.IsPlain, Denotation.isFunction]
  have htu : t.Exchanged u := .swapped .leaf (.swapped .leaf .leaf)
  have hmeans : Means entries t .truth (("a", "b") ∈ [("a", "b")]) :=
    .functionRight (.leaf rfl .entity)
      (.functionLeft (.leaf rfl .relation) (.leaf rfl .namedEntity))
  obtain ⟨_, hvalue, b, rfl, hb⟩ := hmeans.exists_value
  obtain rfl : b = true := hb.2 (by decide)
  obtain ⟨hiff, halike⟩ := evaluate_exchanged entries hplain htu
  obtain ⟨d, hd⟩ := hiff.1 ⟨_, hvalue⟩
  cases halike _ d hvalue hd
  exact ⟨hplain, htu, hvalue, hd⟩

end Extensional

end Readings
