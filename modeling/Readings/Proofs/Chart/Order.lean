import Mathlib.Data.List.Lex
import Mathlib.Data.List.Sort
import Readings.Constituent

/-!
The order in which a node keeps its applications: by rule, then by the spans of the children.
-/

namespace Readings

/-- The span starts earlier, or starts at the same place and stops earlier. -/
def Span.Before (s t : Span) : Prop := s.start < t.start ∨ s.start = t.start ∧ s.stop < t.stop

instance : Std.Asymm Span.Before where
  asymm s t h h' := by
    rw [Span.Before] at h h'
    omega

/-- The rule is declared earlier, or it is the same and the children come first as sequences of
spans. -/
def Application.Before (a b : Application) : Prop :=
  a.rule.id < b.rule.id ∨
    a.rule.id = b.rule.id ∧ List.Lex Span.Before (a.children.map (·.span)) (b.children.map (·.span))

theorem lexLe_total (ms ns : List Nat) : lexLe ms ns || lexLe ns ms := by
  induction ms generalizing ns with
  | nil => simp [lexLe]
  | cons m ms ih =>
    cases ns with
    | nil => simp [lexLe]
    | cons n ns =>
      have h := ih ns
      simp only [lexLe, Bool.or_eq_true, Bool.and_eq_true, decide_eq_true_eq, beq_iff_eq] at h ⊢
      rcases Nat.lt_trichotomy m n with hlt | rfl | hlt
      · exact .inl (.inl hlt)
      · exact h.imp (fun h ↦ .inr ⟨rfl, h⟩) (fun h ↦ .inr ⟨rfl, h⟩)
      · exact .inr (.inl hlt)

theorem lexLe_trans {ks ms ns : List Nat} (h : lexLe ks ms) (h' : lexLe ms ns) : lexLe ks ns := by
  induction ks generalizing ms ns with
  | nil => simp [lexLe]
  | cons k ks ih =>
    cases ms with
    | nil => simp [lexLe] at h
    | cons m ms =>
      cases ns with
      | nil => simp [lexLe] at h'
      | cons n ns =>
        simp only [lexLe, Bool.or_eq_true, Bool.and_eq_true, decide_eq_true_eq, beq_iff_eq]
          at h h' ⊢
        rcases h with h | ⟨rfl, h⟩
        · rcases h' with h' | ⟨rfl, _⟩
          · exact .inl (Nat.lt_trans h h')
          · exact .inl h
        · exact h'.imp id fun h' ↦ ⟨h'.1, ih h h'.2⟩

/-- The bounds of spans one after another are compared as the spans are. -/
theorem eq_or_lex_of_lexLe {ss ts : List Span}
    (h : lexLe (ss.flatMap Span.bounds) (ts.flatMap Span.bounds)) :
    ss = ts ∨ List.Lex Span.Before ss ts := by
  induction ss generalizing ts with
  | nil =>
    cases ts with
    | nil => exact .inl rfl
    | cons t ts => exact .inr .nil
  | cons s ss ih =>
    cases ts with
    | nil => simp [Span.bounds, lexLe] at h
    | cons t ts =>
      simp only [List.flatMap_cons, Span.bounds, List.cons_append, List.nil_append, lexLe,
        Bool.or_eq_true, Bool.and_eq_true, decide_eq_true_eq, beq_iff_eq] at h
      rcases h with h | ⟨hstart, h | ⟨hstop, h⟩⟩
      · exact .inr (.rel (.inl h))
      · exact .inr (.rel (.inr ⟨hstart, h⟩))
      · obtain rfl : s = t := by
          cases s
          cases t
          simp_all
        exact (ih h).imp (congrArg (s :: ·)) .cons

namespace Application

theorem le_total (a b : Application) : a.le b || b.le a := lexLe_total _ _

theorem le_trans (a b c : Application) (h : a.le b) (h' : b.le c) : a.le c := lexLe_trans h h'

theorem flatMap_bounds (children : List Constituent) :
    children.flatMap (·.span.bounds) = (children.map (·.span)).flatMap Span.bounds := by
  rw [List.flatMap_map]

theorem before_of_le {a b : Application} (h : a.le b)
    (hne : ¬ (a.rule.id = b.rule.id ∧ a.children.map (·.span) = b.children.map (·.span))) :
    a.Before b := by
  simp only [le, key, lexLe, Bool.or_eq_true, Bool.and_eq_true, decide_eq_true_eq, beq_iff_eq,
    flatMap_bounds] at h
  rcases h with h | ⟨hid, h⟩
  · exact .inl h
  · exact .inr ⟨hid, (eq_or_lex_of_lexLe h).resolve_left fun he ↦ hne ⟨hid, he⟩⟩

theorem before_asymm {a b : Application} (h : a.Before b) : ¬ b.Before a := by
  intro h'
  rcases h with hlt | ⟨hid, hlex⟩
  · rcases h' with hlt' | ⟨hid', -⟩
    · exact Nat.lt_asymm hlt hlt'
    · exact Nat.ne_of_gt hlt hid'
  · rcases h' with hlt' | ⟨-, hlex'⟩
    · exact Nat.ne_of_gt hlt' hid
    · exact Std.Asymm.asymm _ _ hlex hlex'

instance : Std.Asymm Before := ⟨fun _ _ ↦ before_asymm⟩

/-- The order of applications leaves no choice in how to list them. -/
theorem eq_of_before {as bs : List Application} (has : as.Pairwise Before)
    (hbs : bs.Pairwise Before) (hmem : ∀ a, a ∈ as ↔ a ∈ bs) : as = bs := by
  have hirrefl : Std.Irrefl Before := Std.Asymm.irrefl
  have hantisymm : Std.Antisymm Before := ⟨fun _ _ h h' ↦ absurd h' (before_asymm h)⟩
  exact has.eq_of_mem_iff hbs hmem

end Application

theorem Constituent.list_ext {ks ls : List Constituent}
    (hcategory : ks.map (·.category) = ls.map (·.category))
    (hspan : ks.map (·.span) = ls.map (·.span)) : ks = ls := by
  induction ks generalizing ls with
  | nil => simpa using hcategory
  | cons k ks ih =>
    cases ls with
    | nil => simp at hcategory
    | cons l ls =>
      rw [List.map_cons, List.map_cons, List.cons.injEq] at hcategory hspan
      have hk : k = l := by
        cases k
        cases l
        simp_all
      rw [hk, ih hcategory.2 hspan.2]

end Readings
