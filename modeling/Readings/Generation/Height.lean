import Readings.Grammar.Basic

/-!
Heights: how many levels of rules the shallowest derivation of a category has. A terminal with
words has height 0; a nonterminal is one higher than the tallest category on the right-hand side of
a rule that keeps it lowest. A category that derives no sentence has no height.

Heights are found by going over the rules until nothing changes. A rule whose right-hand side has
heights gives its head one, unless the head is known to be as low already. A pass that changes
something leaves fewer heads without a height, or some head with a lower one, so that some pass is
the last.
-/

namespace Readings

/-- What is known of the heights. The first entry for a category is the one that counts. -/
structure Heights where
  known : List (String × Nat)
  deriving DecidableEq, Inhabited

namespace Heights

def height? (h : Heights) (category : String) : Option Nat := h.known.lookup category

/-- One more than the tallest category on the right-hand side, if all heights there are known. -/
def ofRule? (h : Heights) (rule : Rule) : Option Nat :=
  (rule.rhs.mapM h.height?).map fun below ↦ below.foldl max 0 + 1

def note (h : Heights) (category : String) (height : Nat) : Heights :=
  ⟨(category, height) :: h.known⟩

/-- The height that a rule gives its head, if none is known that is as low. -/
def gain? (h : Heights) (rule : Rule) : Option Nat :=
  (h.ofRule? rule).filter fun height ↦ (h.height? rule.lhs).all (height < ·)

/-- Takes account of a rule; the mark says whether some height has changed. -/
def relax : Heights × Bool → Rule → Heights × Bool
  | (h, changed), rule =>
    match h.gain? rule with
    | some height => (h.note rule.lhs height, true)
    | none => (h, changed)

def pass (rules : List Rule) (h : Heights) : Heights × Bool := rules.foldl relax (h, false)

section Order

variable {h h' h'' : Heights} {c d : String} {n : Nat} {rule : Rule} {rules : List Rule}
variable {p : Heights × Bool}

theorem height?_note : (h.note c n).height? d = if d = c then some n else h.height? d := by
  rw [height?, note, List.lookup_cons]
  by_cases heq : d = c
  · rw [if_pos heq, beq_iff_eq.2 heq]
  · rw [if_neg heq, beq_eq_false_iff_ne.2 heq]
    rfl

theorem gain?_eq_some_iff :
    h.gain? rule = some n ↔ h.ofRule? rule = some n ∧ ∀ m, h.height? rule.lhs = some m → n < m := by
  rw [gain?, Option.filter_eq_some_iff, Option.all_eq_true]
  simp only [decide_eq_true_eq]

theorem relax_of_gain (hn : p.1.gain? rule = some n) :
    relax p rule = (p.1.note rule.lhs n, true) := by
  rw [relax, hn]

theorem relax_of_no_gain (hnone : p.1.gain? rule = none) : relax p rule = p := by
  rw [relax, hnone]

/-- What has a height in `h` has one in `h'`, and it is no greater. -/
instance : LE Heights :=
  ⟨fun h' h ↦ ∀ c n, h.height? c = some n → ∃ n' ≤ n, h'.height? c = some n'⟩

theorem le_refl (h : Heights) : h ≤ h := fun _ n hn ↦ ⟨n, Nat.le_refl n, hn⟩

theorem le_trans (hle : h'' ≤ h') (hle' : h' ≤ h) : h'' ≤ h := by
  intro c n hn
  obtain ⟨m, hm, hc⟩ := hle' c n hn
  obtain ⟨l, hl, hc'⟩ := hle c m hc
  exact ⟨l, Nat.le_trans hl hm, hc'⟩

/-- The category has a height in `h'` that is less than the one it has in `h`, if any. -/
def Drops (h' h : Heights) (c : String) : Prop :=
  ∃ n, h'.height? c = some n ∧ ∀ m, h.height? c = some m → n < m

theorem Drops.of_le (hd : Drops h' h c) (hle : h'' ≤ h') : Drops h'' h c := by
  obtain ⟨n, hn, hlt⟩ := hd
  obtain ⟨n', hn', hc⟩ := hle c n hn
  exact ⟨n', hc, fun m hm ↦ Nat.lt_of_le_of_lt hn' (hlt m hm)⟩

theorem Drops.to_ge (hd : Drops h'' h' c) (hle : h' ≤ h) : Drops h'' h c := by
  obtain ⟨n, hn, hlt⟩ := hd
  refine ⟨n, hn, fun m hm ↦ ?_⟩
  obtain ⟨m', hm', hc⟩ := hle c m hm
  exact Nat.lt_of_lt_of_le (hlt m' hc) hm'

theorem note_le (hn : ∀ m, h.height? c = some m → n < m) : h.note c n ≤ h := by
  intro d m hm
  rw [height?_note]
  split
  · rename_i heq
    exact ⟨n, Nat.le_of_lt (hn m (heq ▸ hm)), rfl⟩
  · exact ⟨m, Nat.le_refl m, hm⟩

theorem relax_le (p : Heights × Bool) (rule : Rule) : (relax p rule).1 ≤ p.1 := by
  cases hgain : p.1.gain? rule with
  | none =>
    rw [relax_of_no_gain hgain]
    exact le_refl p.1
  | some n =>
    rw [relax_of_gain hgain]
    exact note_le (gain?_eq_some_iff.1 hgain).2

theorem drops_of_relax (hchanged : (relax p rule).2) :
    p.2 ∨ Drops (relax p rule).1 p.1 rule.lhs := by
  cases hgain : p.1.gain? rule with
  | none =>
    rw [relax_of_no_gain hgain] at hchanged
    exact .inl hchanged
  | some n =>
    rw [relax_of_gain hgain]
    exact .inr ⟨n, by rw [height?_note, if_pos rfl], (gain?_eq_some_iff.1 hgain).2⟩

theorem foldl_relax_le (rules : List Rule) (p : Heights × Bool) :
    (rules.foldl relax p).1 ≤ p.1 := by
  induction rules generalizing p with
  | nil => exact le_refl _
  | cons rule rules ih => exact le_trans (ih _) (relax_le p rule)

theorem drops_of_foldl_relax (hchanged : (rules.foldl relax p).2) :
    p.2 ∨ ∃ rule ∈ rules, Drops (rules.foldl relax p).1 p.1 rule.lhs := by
  induction rules generalizing p with
  | nil => exact .inl hchanged
  | cons rule rules ih =>
    rcases ih hchanged with h | ⟨later, hr, hd⟩
    · refine (drops_of_relax h).imp_right fun hd ↦ ⟨rule, List.mem_cons_self, ?_⟩
      exact hd.of_le (foldl_relax_le rules _)
    · exact .inr ⟨later, List.mem_cons_of_mem _ hr, hd.to_ge (relax_le p rule)⟩

theorem pass_le (rules : List Rule) (h : Heights) : (pass rules h).1 ≤ h := foldl_relax_le rules _

theorem drops_of_pass (hchanged : (pass rules h).2) :
    ∃ rule ∈ rules, Drops (pass rules h).1 h rule.lhs :=
  (drops_of_foldl_relax hchanged).resolve_left Bool.false_ne_true

/-- What a rule adds to the number of heads without a height, and to the sum of the heights. -/
def weight (h : Heights) (rule : Rule) : Nat × Nat :=
  match h.height? rule.lhs with
  | none => (1, 0)
  | some height => (0, height)

def measure (h : Heights) : List Rule → Nat × Nat
  | [] => (0, 0)
  | rule :: rules =>
    ((h.weight rule).1 + (h.measure rules).1, (h.weight rule).2 + (h.measure rules).2)

theorem weight_le (hle : h' ≤ h) (rule : Rule) :
    (h'.weight rule).1 < (h.weight rule).1 ∨
      (h'.weight rule).1 = (h.weight rule).1 ∧ (h'.weight rule).2 ≤ (h.weight rule).2 := by
  rw [weight, weight]
  cases hh : h.height? rule.lhs with
  | none => cases h'.height? rule.lhs <;> simp
  | some n =>
    obtain ⟨n', hn', hh'⟩ := hle rule.lhs n hh
    rw [hh']
    exact .inr ⟨rfl, hn'⟩

theorem weight_lt (hd : Drops h' h rule.lhs) :
    (h'.weight rule).1 < (h.weight rule).1 ∨
      (h'.weight rule).1 = (h.weight rule).1 ∧ (h'.weight rule).2 < (h.weight rule).2 := by
  obtain ⟨n', hh', hlt⟩ := hd
  rw [weight, weight, hh']
  cases hh : h.height? rule.lhs with
  | none => exact .inl Nat.one_pos
  | some n => exact .inr ⟨rfl, hlt n hh⟩

theorem measure_le (hle : h' ≤ h) (rules : List Rule) :
    (h'.measure rules).1 < (h.measure rules).1 ∨
      (h'.measure rules).1 = (h.measure rules).1 ∧ (h'.measure rules).2 ≤ (h.measure rules).2 := by
  induction rules with
  | nil => exact .inr ⟨rfl, Nat.le_refl 0⟩
  | cons rule rules ih =>
    have hrule := weight_le hle rule
    simp only [measure]
    omega

theorem measure_lt (hle : h' ≤ h) (hd : ∃ rule ∈ rules, Drops h' h rule.lhs) :
    (h'.measure rules).1 < (h.measure rules).1 ∨
      (h'.measure rules).1 = (h.measure rules).1 ∧ (h'.measure rules).2 < (h.measure rules).2 := by
  obtain ⟨rule, hr, hd⟩ := hd
  induction rules with
  | nil => cases hr
  | cons first rules ih =>
    have hfirst := weight_le hle first
    have hrest := measure_le hle rules
    simp only [measure]
    cases hr with
    | head =>
      have hhead := weight_lt hd
      omega
    | tail _ hr =>
      have htail := ih hr
      omega

end Order

/-- Goes over the rules until a pass leaves everything as it was. -/
def settle (rules : List Rule) (h : Heights) : Heights :=
  let after := pass rules h
  if after.2 then settle rules after.1 else after.1
termination_by h.measure rules
decreasing_by
  rename_i hchanged
  exact Prod.lex_def.2 (measure_lt (pass_le rules h) (drops_of_pass hchanged))

/-- The heights that no rule has a part in. -/
def lexical (g : Grammar) : Heights :=
  ⟨(g.terminals.filter fun c ↦ !(g.lexicon.tokensOf c).isEmpty).map (·, 0)⟩

def ofGrammar (g : Grammar) : Heights := settle g.rules (lexical g)

end Heights

end Readings
