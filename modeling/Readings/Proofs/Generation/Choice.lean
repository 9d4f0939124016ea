import Readings.Generation.Sentence

/-!
What computations that make choices give, from one state of their chooser to another. With choices
that are written down in advance, the state is the list of those still to be made.
-/

namespace Readings

/-- Takes its choices from a list; any list will do, and zeros follow it. -/
def Chooser.scripted : Chooser (List Nat) where
  choose n := modifyGet fun choices ↦ (@Fin.ofNat (n + 1) Nat.instNeZeroSucc (choices.headD 0), choices.tail)

namespace Choosing

variable {σ α β : Type}

/-- From the state `s` the computation succeeds with this result and leaves the state `s'`. -/
def Gives (m : Choosing σ α) (s : σ) (a : α) (s' : σ) : Prop := m.run.run s = (.ok a, s')

/-- From the state `s` the computation fails. -/
def Throws (m : Choosing σ α) (s : σ) (e : GenerateError) : Prop := (m.run.run s).1 = .error e

/-- Whatever is chosen, the computation succeeds with a result that has the property. -/
def Ensures (m : Choosing σ α) (P : α → Prop) : Prop := ∀ s, ∃ a s', m.Gives s a s' ∧ P a

/-- Some choices lead to the result, whatever is to be chosen after them. -/
def Reaches (m : Choosing (List Nat) α) (a : α) : Prop :=
  ∃ choices, ∀ rest, m.Gives (choices ++ rest) a rest

section Gives

variable {m : Choosing σ α} {f : α → Choosing σ β} {s s' : σ} {a a' : α} {b : β}

theorem gives_pure_iff : (pure a : Choosing σ α).Gives s a' s' ↔ a = a' ∧ s = s' := by
  change (Except.ok a, s) = (Except.ok a', s') ↔ _
  rw [Prod.mk.injEq, Except.ok.injEq]

theorem gives_bind_iff :
    (m >>= f).Gives s b s' ↔ ∃ a t, m.Gives s a t ∧ (f a).Gives t b s' := by
  rw [Gives, ExceptT.run_bind, StateT.run_bind]
  simp only [Gives]
  cases hm : m.run.run s with
  | mk result t =>
    cases result with
    | error e =>
      apply iff_of_false
      · rintro ⟨⟩
      · rintro ⟨_, _, ⟨⟩, _⟩
    | ok a =>
      constructor
      · intro h
        exact ⟨a, t, rfl, h⟩
      · rintro ⟨_, _, ⟨⟩, h⟩
        exact h

theorem Gives.map {f : α → β} (h : m.Gives s a s') : (f <$> m).Gives s (f a) s' := by
  rw [map_eq_pure_bind]
  exact gives_bind_iff.2 ⟨a, s', h, gives_pure_iff.2 ⟨rfl, rfl⟩⟩

theorem Gives.not_throws {e : GenerateError} (h : m.Gives s a s') : ¬ m.Throws s e := by
  rw [Throws, h]
  rintro ⟨⟩

theorem not_gives_throw {e : GenerateError} : ¬ (throw e : Choosing σ α).Gives s a s' := by
  rintro ⟨⟩

theorem mem_of_oneOf {c : Chooser σ} {category : String} {xs : List α}
    (h : (Generator.oneOf c category xs).Gives s a s') : a ∈ xs := by
  cases xs with
  | nil => exact absurd h not_gives_throw
  | cons first rest =>
    have ha : (first :: rest)[((c.choose rest.length).run s).1] = a :=
      Except.ok.inj (Prod.mk.inj h).1
    exact ha ▸ List.getElem_mem _

end Gives

section Ensures

variable {m : Choosing σ α} {f f' : α → Choosing σ β} {P : α → Prop} {Q : β → Prop}
variable {c : Chooser σ} {category : String} {xs : List α}

theorem ensures_pure {a : α} (ha : P a) : (pure a : Choosing σ α).Ensures P :=
  fun s ↦ ⟨a, s, gives_pure_iff.2 ⟨rfl, rfl⟩, ha⟩

theorem Ensures.bind (h : m.Ensures P) (h' : ∀ a, P a → (f a).Ensures Q) : (m >>= f).Ensures Q := by
  intro s
  obtain ⟨a, t, hm, ha⟩ := h s
  obtain ⟨b, s', hf, hb⟩ := h' a ha t
  exact ⟨b, s', gives_bind_iff.2 ⟨a, t, hm, hf⟩, hb⟩

theorem Ensures.mono {P' : α → Prop} (h : m.Ensures P) (hP : ∀ a, P a → P' a) : m.Ensures P' := by
  intro s
  obtain ⟨a, s', hm, ha⟩ := h s
  exact ⟨a, s', hm, hP a ha⟩

theorem ensures_oneOf (hne : xs ≠ []) : (Generator.oneOf c category xs).Ensures (· ∈ xs) := by
  intro s
  cases xs with
  | nil => exact absurd rfl hne
  | cons first rest => exact ⟨_, _, rfl, List.getElem_mem _⟩

/-- What follows a computation matters on the results only that it can give. -/
theorem bind_congr_of_gives (h : ∀ s a s', m.Gives s a s' → f a = f' a) :
    m >>= f = m >>= f' := by
  refine ExceptT.ext (StateT.ext fun s ↦ ?_)
  rw [ExceptT.run_bind, ExceptT.run_bind, StateT.run_bind, StateT.run_bind]
  cases hm : m.run.run s with
  | mk result t =>
    cases result with
    | error e => rfl
    | ok a =>
      exact congrArg (fun rest : Choosing σ β ↦ rest.run.run t) (h s a t hm)

end Ensures

section Reaches

variable {m : Choosing (List Nat) α} {f : α → Choosing (List Nat) β} {a : α} {b : β}

theorem reaches_pure (a : α) : Reaches (pure a) a :=
  ⟨[], fun _ ↦ gives_pure_iff.2 ⟨rfl, rfl⟩⟩

theorem Reaches.bind (h : m.Reaches a) (h' : (f a).Reaches b) : (m >>= f).Reaches b := by
  obtain ⟨choices, hm⟩ := h
  obtain ⟨choices', hf⟩ := h'
  refine ⟨choices ++ choices', fun rest ↦ ?_⟩
  rw [List.append_assoc]
  exact gives_bind_iff.2 ⟨a, _, hm _, hf rest⟩

theorem reaches_oneOf {category : String} {xs : List α} (ha : a ∈ xs) :
    (Generator.oneOf .scripted category xs).Reaches a := by
  cases xs with
  | nil => cases ha
  | cons first rest =>
    obtain ⟨i, hi, rfl⟩ := List.getElem_of_mem ha
    have hmod : Fin.ofNat (rest.length + 1) i = ⟨i, hi⟩ := Fin.ext (Nat.mod_eq_of_lt hi)
    refine ⟨[i], fun choices ↦ ?_⟩
    exact congrArg (fun j ↦ (Except.ok ((first :: rest).get j), choices)) hmod

end Reaches

end Choosing

end Readings
