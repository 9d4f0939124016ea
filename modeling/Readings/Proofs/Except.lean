import Readings.Proofs.List

/-!
Computations that may fail. A sequence of them succeeds if and only if all of them do, and otherwise
fails as the first that does.
-/

namespace Readings

variable {ε α β : Type}

theorem exists_eq_ok_iff {x : Except ε α} : (∃ a, x = .ok a) ↔ ∀ e, x ≠ .error e := by
  cases x with
  | ok a => exact iff_of_true ⟨a, rfl⟩ nofun
  | error e => exact iff_of_false nofun fun h ↦ h e rfl

/-- A computation whose failures are given by an option succeeds if there is none. -/
theorem exists_eq_ok_iff_none {x : Except ε α} {failure : Option ε}
    (h : ∀ e, x = .error e ↔ failure = some e) : (∃ a, x = .ok a) ↔ failure = none := by
  rw [exists_eq_ok_iff, Option.eq_none_iff_forall_ne_some]
  exact forall_congr' fun e ↦ not_congr (h e)

theorem bind_eq_ok_iff {x : Except ε α} {f : α → Except ε β} {b : β} :
    x >>= f = .ok b ↔ ∃ a, x = .ok a ∧ f a = .ok b := by
  cases x with
  | ok a => exact ⟨fun h ↦ ⟨a, rfl, h⟩, fun ⟨_, ha, h⟩ ↦ Except.ok.inj ha ▸ h⟩
  | error e => exact iff_of_false nofun nofun

theorem bind_eq_error_iff {x : Except ε α} {f : α → Except ε β} {e : ε} :
    x >>= f = .error e ↔ x = .error e ∨ ∃ a, x = .ok a ∧ f a = .error e := by
  cases x with
  | ok a => exact ⟨fun h ↦ .inr ⟨a, rfl, h⟩, fun | .inr ⟨_, ha, h⟩ => Except.ok.inj ha ▸ h⟩
  | error e' =>
    refine ⟨fun h ↦ .inl (congrArg _ (Except.error.inj h)), ?_⟩
    rintro (h | ⟨_, h, _⟩)
    · exact congrArg _ (Except.error.inj h)
    · cases h

theorem map_eq_ok_iff {x : Except ε α} {f : α → β} {b : β} :
    f <$> x = .ok b ↔ ∃ a, x = .ok a ∧ f a = b := by
  cases x with
  | ok a =>
    refine ⟨fun h ↦ ⟨a, rfl, Except.ok.inj h⟩, fun ⟨a', ha, h⟩ ↦ ?_⟩
    rw [Except.ok.inj ha]
    exact congrArg _ h
  | error e => exact iff_of_false nofun nofun

theorem map_eq_error_iff {x : Except ε α} {f : α → β} {e : ε} :
    f <$> x = .error e ↔ x = .error e := by
  cases x with
  | ok a => exact iff_of_false nofun nofun
  | error e' =>
    exact ⟨fun h ↦ congrArg _ (Except.error.inj h), fun h ↦ congrArg _ (Except.error.inj h)⟩

theorem mapError_eq_ok_iff {δ : Type} {x : Except ε α} {f : ε → δ} {a : α} :
    x.mapError f = .ok a ↔ x = .ok a := by
  cases x with
  | ok a' => exact ⟨fun h ↦ congrArg _ (Except.ok.inj h), fun h ↦ congrArg _ (Except.ok.inj h)⟩
  | error e => exact iff_of_false nofun nofun

theorem mapM_eq_ok_iff {f : α → Except ε β} {xs : List α} {ys : List β} :
    xs.mapM f = .ok ys ↔ List.Forall₂ (fun x y ↦ f x = .ok y) xs ys := by
  induction xs generalizing ys with
  | nil =>
    rw [List.mapM_nil, List.forall₂_nil_left_iff]
    exact ⟨fun h ↦ (Except.ok.inj h).symm, fun h ↦ congrArg _ h.symm⟩
  | cons x xs ih =>
    simp only [List.mapM_cons, bind_eq_ok_iff, ih, List.forall₂_cons_left_iff]
    constructor
    · rintro ⟨y, hy, ys, hys, h⟩
      exact ⟨y, ys, hy, hys, (Except.ok.inj h).symm⟩
    · rintro ⟨y, ys, hy, hys, rfl⟩
      exact ⟨y, hy, ys, hys, rfl⟩

theorem mapM_eq_ok_iff_map_eq {f : α → Except ε β} {p : β → Prop} {g : β → α}
    (h : ∀ x y, f x = .ok y ↔ p y ∧ g y = x) {xs : List α} {ys : List β} :
    xs.mapM f = .ok ys ↔ (∀ y ∈ ys, p y) ∧ ys.map g = xs := by
  simp only [mapM_eq_ok_iff, h]
  rw [← forall₂_and_eq_iff]
  exact ⟨.flip, .flip⟩

theorem mapM_cons_eq_error_iff {f : α → Except ε β} {x : α} {xs : List α} {e : ε} :
    (x :: xs).mapM f = .error e ↔
      f x = .error e ∨ (∃ y, f x = .ok y) ∧ xs.mapM f = .error e := by
  have htail (y : β) :
      (do let ys ← xs.mapM f; pure (y :: ys)) = .error e ↔ xs.mapM f = .error e := by
    simp only [bind_eq_error_iff]
    exact or_iff_left fun ⟨_, _, h⟩ ↦ by cases h
  rw [List.mapM_cons, bind_eq_error_iff]
  simp only [htail, ← exists_and_right]

/-- The first failure is what a sequence fails with. -/
theorem mapM_eq_error_iff {f : α → Except ε β} {xs : List α} {e : ε} :
    xs.mapM f = .error e ↔ ∃ before x after, xs = before ++ x :: after ∧
      (∀ b ∈ before, ∃ y, f b = .ok y) ∧ f x = .error e := by
  induction xs with
  | nil => exact iff_of_false nofun fun ⟨_, _, _, h, _⟩ ↦ by simp at h
  | cons x xs ih =>
    rw [mapM_cons_eq_error_iff, ih]
    constructor
    · rintro (h | ⟨hx, before, x', after, rfl, hbefore, he⟩)
      · exact ⟨[], x, xs, rfl, by simp, h⟩
      · exact ⟨x :: before, x', after, rfl, List.forall_mem_cons.2 ⟨hx, hbefore⟩, he⟩
    · rintro ⟨before, x', after, h, hbefore, he⟩
      obtain ⟨rfl, h⟩ | ⟨before, rfl, rfl⟩ := List.cons_eq_append_iff.1 h
      · cases h
        exact .inl he
      · obtain ⟨hx, hbefore⟩ := List.forall_mem_cons.1 hbefore
        exact .inr ⟨hx, before, x', after, rfl, hbefore, he⟩

/-- If each computation fails with the first failure among its parts, then a sequence of them fails
with the first among all parts. -/
theorem mapM_eq_error_iff_findSome? {γ : Type} {f : α → Except ε β} {parts : α → List γ}
    {failure? : γ → Option ε} {xs : List α}
    (h : ∀ x ∈ xs, ∀ e, f x = .error e ↔ (parts x).findSome? failure? = some e) (e : ε) :
    xs.mapM f = .error e ↔ (xs.flatMap parts).findSome? failure? = some e := by
  induction xs with
  | nil => exact iff_of_false nofun nofun
  | cons x xs ih =>
    obtain ⟨hx, hxs⟩ := List.forall_mem_cons.1 h
    rw [mapM_cons_eq_error_iff, List.flatMap_cons, List.findSome?_append, Option.or_eq_some_iff,
      hx, exists_eq_ok_iff_none hx, ih hxs]

/-- The failures among the results, in order. -/
def failures (rs : List (Except ε α)) : List ε :=
  rs.filterMap fun | .error e => some e | .ok _ => none

/-- The successes among the results, in order. -/
def successes (rs : List (Except ε α)) : List α :=
  rs.filterMap fun | .ok a => some a | .error _ => none

theorem failures_append (rs rs' : List (Except ε α)) :
    failures (rs ++ rs') = failures rs ++ failures rs' := List.filterMap_append

theorem successes_append (rs rs' : List (Except ε α)) :
    successes (rs ++ rs') = successes rs ++ successes rs' := List.filterMap_append

theorem failures_map_ok (as : List α) : failures (as.map (.ok : α → Except ε α)) = [] := by
  simp [failures, List.filterMap_map]

theorem successes_map_ok (as : List α) : successes (as.map (.ok : α → Except ε α)) = as := by
  simp [successes, List.filterMap_map]

theorem filterMap_eq_failures {f : Except ε α → Option ε} (herror : ∀ e, f (.error e) = some e)
    (hok : ∀ a, f (.ok a) = none) (rs : List (Except ε α)) : rs.filterMap f = failures rs := by
  refine List.filterMap_congr fun r _ ↦ ?_
  cases r with
  | ok a => exact hok a
  | error e => exact herror e

theorem filterMap_eq_successes {f : Except ε α → Option α} (hok : ∀ a, f (.ok a) = some a)
    (herror : ∀ e, f (.error e) = none) (rs : List (Except ε α)) :
    rs.filterMap f = successes rs := by
  refine List.filterMap_congr fun r _ ↦ ?_
  cases r with
  | ok a => exact hok a
  | error e => exact herror e

variable {rs : List (Except ε α)}

theorem mem_failures_iff {e : ε} : e ∈ failures rs ↔ .error e ∈ rs := by
  rw [failures, List.mem_filterMap]
  constructor
  · intro h
    obtain ⟨r, hr, he⟩ := h
    cases r <;> cases he
    exact hr
  · intro h
    exact ⟨_, h, rfl⟩

theorem mem_successes_iff {a : α} : a ∈ successes rs ↔ .ok a ∈ rs := by
  rw [successes, List.mem_filterMap]
  constructor
  · intro h
    obtain ⟨r, hr, ha⟩ := h
    cases r <;> cases ha
    exact hr
  · intro h
    exact ⟨_, h, rfl⟩

theorem failures_pairwise {R : Except ε α → Except ε α → Prop} (h : rs.Pairwise R) :
    (failures rs).Pairwise fun e e' ↦ R (.error e) (.error e') := by
  rw [failures, List.pairwise_filterMap]
  refine h.imp fun {r r'} hR e he e' he' ↦ ?_
  cases r <;> cases he
  cases r' <;> cases he'
  exact hR

theorem successes_pairwise {R : Except ε α → Except ε α → Prop} (h : rs.Pairwise R) :
    (successes rs).Pairwise fun a a' ↦ R (.ok a) (.ok a') := by
  rw [successes, List.pairwise_filterMap]
  refine h.imp fun {r r'} hR a ha a' ha' ↦ ?_
  cases r <;> cases ha
  cases r' <;> cases ha'
  exact hR

end Readings
