import Readings.Proofs.Generation.Depth

/-!
Heights in numbers that end. A height is found only after heights for as many heads as it counts, so
that none is greater than the number of rules: where numbers go further than that, going over the
rules is the same as if they had no end. What is found in the end are the least heights of trees.
-/

namespace Readings

open Grammar

namespace Heights

variable {g : Grammar} {h h' : Heights} {c : String} {n top : Nat} {rule : Rule}
variable {rules : List Rule} {p : Heights × Bool}

/-- Takes account of a rule where numbers end at `top`. There is no result if a height is no number;
a head that is new is entered at `top` if its height is not less. -/
def relaxWithin (top : Nat) : Heights × Bool → Rule → Option (Heights × Bool)
  | (h, changed), rule =>
    match h.ofRule? rule with
    | none => some (h, changed)
    | some height =>
      let known := h.height? rule.lhs
      if top < height then none
      else if height < known.getD top then some (h.note rule.lhs height, true)
      else some (if known.isSome then h else h.note rule.lhs top, changed)

def passWithin (top : Nat) (rules : List Rule) (h : Heights) : Option (Heights × Bool) :=
  rules.foldlM (relaxWithin top) (h, false)

/-- Going over the rules from `h` comes to an end, with a last pass that leaves everything as it
was, and no height on the way is beyond the numbers. -/
inductive SettlesWithin (top : Nat) (rules : List Rule) : Heights → Heights → Prop where
  | last {h h' : Heights} (quiet : passWithin top rules h = some (h', false)) :
      SettlesWithin top rules h h'
  | again {h after h' : Heights} (changed : passWithin top rules h = some (after, true))
      (rest : SettlesWithin top rules after h') : SettlesWithin top rules h h'

/-- How many rules have a head with a height. -/
def reached (rules : List Rule) (h : Heights) : Nat :=
  rules.countP fun rule ↦ (h.height? rule.lhs).isSome

/-- No height is greater than the number of rules that could have led to it. -/
def Low (rules : List Rule) (h : Heights) : Prop :=
  ∀ c n, h.height? c = some n → n ≤ h.reached rules

section Reached

theorem reached_le_length : h.reached rules ≤ rules.length := List.countP_le_length

theorem isSome_height?_of_le (hle : h' ≤ h) (hsome : (h.height? c).isSome) :
    (h'.height? c).isSome := by
  obtain ⟨n, hn⟩ := Option.isSome_iff_exists.1 hsome
  obtain ⟨n', -, hn'⟩ := hle c n hn
  exact Option.isSome_of_eq_some hn'

theorem reached_le_reached (hle : h' ≤ h) : h.reached rules ≤ h'.reached rules :=
  List.countP_mono_left fun _ _ ↦ isSome_height?_of_le hle

theorem reached_lt_length (hr : rule ∈ rules) (hnew : h.height? rule.lhs = none) :
    h.reached rules < rules.length :=
  List.countP_lt_length_iff.2 ⟨rule, hr, by rw [hnew]; rfl⟩

theorem reached_lt_reached (hle : h' ≤ h) (hr : rule ∈ rules) (hnew : h.height? rule.lhs = none)
    (hsome : (h'.height? rule.lhs).isSome) : h.reached rules < h'.reached rules :=
  countP_lt_countP (fun _ _ ↦ isSome_height?_of_le hle) hr (by simp [hnew]) hsome

end Reached

namespace Low

theorem ofRule?_le (hlow : Low rules h) (hn : h.ofRule? rule = some n) :
    n ≤ h.reached rules + 1 := by
  have hsome := isSome_ofRule?_iff.1 (Option.isSome_of_eq_some hn)
  obtain ⟨k, hk, hrule⟩ := exists_ofRule?_le_iff.2 fun c hc ↦ by
    obtain ⟨m, hm⟩ := Option.isSome_iff_exists.1 (hsome c hc)
    exact ⟨m, hlow c m hm, hm⟩
  rw [hn, Option.some.injEq] at hrule
  exact hrule ▸ hk

theorem note (hlow : Low rules h) (hr : rule ∈ rules) (hgain : h.gain? rule = some n) :
    Low rules (h.note rule.lhs n) := by
  obtain ⟨hrule, hlt⟩ := gain?_eq_some_iff.1 hgain
  have hle := note_le hlt
  intro c m hm
  rw [height?_note] at hm
  split at hm
  next =>
    cases hm
    cases hknown : h.height? rule.lhs with
    | none =>
      -- the height of a new head counts one more than was reached, but the head itself is reached
      have hsome : ((h.note rule.lhs n).height? rule.lhs).isSome := by simp [height?_note]
      exact (hlow.ofRule?_le hrule).trans (reached_lt_reached hle hr hknown hsome)
    | some k => exact ((hlt k hknown).le.trans (hlow _ k hknown)).trans (reached_le_reached hle)
  next => exact (hlow c m hm).trans (reached_le_reached hle)

theorem relax (hlow : Low rules p.1) (hr : rule ∈ rules) : Low rules (Heights.relax p rule).1 := by
  cases hgain : p.1.gain? rule with
  | none =>
    rw [relax_of_no_gain hgain]
    exact hlow
  | some n =>
    rw [relax_of_gain hgain]
    exact hlow.note hr hgain

theorem foldl_relax (hlow : Low rules p.1) {later : List Rule}
    (hlater : ∀ rule ∈ later, rule ∈ rules) : Low rules (later.foldl Heights.relax p).1 := by
  induction later generalizing p with
  | nil => exact hlow
  | cons rule later ih =>
    obtain ⟨hr, hrest⟩ := List.forall_mem_cons.1 hlater
    exact ih (hlow.relax hr) hrest

theorem settle (hlow : Low rules h) : Low rules (Heights.settle rules h) := by
  fun_induction Heights.settle rules h with
  | case1 h after hchanged ih => exact ih (hlow.foldl_relax fun _ hr ↦ hr)
  | case2 h after hquiet => exact hlow.foldl_relax fun _ hr ↦ hr

end Low

theorem low_lexical (g : Grammar) (rules : List Rule) : Low rules (lexical g) := by
  intro c n hn
  obtain ⟨front, back, heq, -⟩ := List.lookup_eq_some_iff.1 hn
  have hmem : (c, n) ∈ (lexical g).known := by simp [heq]
  obtain ⟨c', -, heq⟩ := List.mem_map.1 hmem
  cases heq
  exact Nat.zero_le _

theorem relaxWithin_eq (htop : rules.length < top) (hlow : Low rules p.1) (hr : rule ∈ rules) :
    relaxWithin top p rule = some (relax p rule) := by
  rw [relaxWithin]
  cases hrule : p.1.ofRule? rule with
  | none => rw [relax_of_no_gain (by rw [gain?, hrule]; rfl)]
  | some n =>
    have hn := hlow.ofRule?_le hrule
    have hle : p.1.reached rules ≤ rules.length := reached_le_length
    have hsum : ¬ top < n := by omega
    dsimp only
    rw [if_neg hsum]
    cases hknown : p.1.height? rule.lhs with
    | none =>
      -- the head is not reached, so that its height is less than what it is first entered at
      have hlt := reached_lt_length hr hknown
      have hnew : n < top := by omega
      rw [relax_of_gain (gain?_eq_some_iff.2 ⟨hrule, by simp [hknown]⟩)]
      exact if_pos hnew
    | some k =>
      have hgain : p.1.gain? rule = if n < k then some n else none := by
        simp [gain?, hrule, hknown, Option.filter_some]
      rw [Option.getD_some]
      by_cases hlt : n < k
      · rw [relax_of_gain (hgain.trans (if_pos hlt)), if_pos hlt]
      · rw [relax_of_no_gain (hgain.trans (if_neg hlt)), if_neg hlt]
        rfl

theorem foldlM_relaxWithin_eq (htop : rules.length < top) (hlow : Low rules p.1) {later : List Rule}
    (hlater : ∀ rule ∈ later, rule ∈ rules) :
    later.foldlM (relaxWithin top) p = some (later.foldl relax p) := by
  induction later generalizing p with
  | nil => rfl
  | cons rule later ih =>
    obtain ⟨hr, hrest⟩ := List.forall_mem_cons.1 hlater
    rw [List.foldlM_cons, relaxWithin_eq htop hlow hr, List.foldl_cons]
    exact ih (hlow.relax hr) hrest

theorem passWithin_eq (htop : rules.length < top) (hlow : Low rules h) :
    passWithin top rules h = some (pass rules h) :=
  foldlM_relaxWithin_eq htop hlow fun _ hr ↦ hr

theorem settlesWithin_settle (htop : rules.length < top) (hlow : Low rules h) :
    SettlesWithin top rules h (settle rules h) := by
  fun_induction settle rules h with
  | case1 h after hchanged ih =>
    have hpass : passWithin top rules h = some (after.1, true) := by
      rw [passWithin_eq htop hlow, ← hchanged]
    exact .again hpass (ih (hlow.foldl_relax fun _ hr ↦ hr))
  | case2 h after hquiet =>
    have hpass : passWithin top rules h = some (after.1, false) := by
      rw [passWithin_eq htop hlow, ← Bool.eq_false_of_not_eq_true hquiet]
    exact .last hpass

/-- There is no more than one way to go over the rules. -/
theorem SettlesWithin.unique {h₁ h₂ : Heights} (hs : SettlesWithin top rules h h₁)
    (hs' : SettlesWithin top rules h h₂) : h₁ = h₂ := by
  induction hs with
  | last quiet =>
    cases hs' with
    | last quiet' => simpa [quiet] using quiet'
    | again changed' rest' => simp [quiet] at changed'
  | again changed rest ih =>
    cases hs' with
    | last quiet' => simp [changed] at quiet'
    | again changed' rest' =>
      rw [changed, Option.some.injEq, Prod.mk.injEq] at changed'
      exact ih (changed'.1 ▸ rest')

theorem settlesWithin_iff (htop : rules.length < top) (hlow : Low rules h) :
    SettlesWithin top rules h h' ↔ h' = settle rules h := by
  constructor
  · exact fun hs ↦ hs.unique (settlesWithin_settle htop hlow)
  · rintro rfl
    exact settlesWithin_settle htop hlow

end Heights

/-- The heights are found after finitely many passes. A category has one if and only if it derives
tokens, and it is the least height of the trees for the category. No height is greater than the
number of rules, so that none overflows where numbers go further, nor is a head left at the greatest
of them. -/
theorem heights_least (g : Grammar) (hg : g.Built) :
    (∀ category, ((Heights.ofGrammar g).height? category).isSome ↔
      ∃ tokens, g.Derives [category] tokens) ∧
    (∀ category n, (Heights.ofGrammar g).height? category = some n ↔ g.LeastHeight category n) ∧
    (∀ category n, (Heights.ofGrammar g).height? category = some n → n ≤ g.rules.length) ∧
    ∀ top, g.rules.length < top →
      ∀ h, Heights.SettlesWithin top g.rules (Heights.lexical g) h ↔ h = Heights.ofGrammar g := by
  have hlow := Heights.low_lexical g g.rules
  refine ⟨fun category ↦ Generator.isSome_height?_iff_derives hg.wellFormed,
    fun category n ↦ (Generator.leastHeight_iff hg.wellFormed).symm, fun category n hn ↦ ?_,
    fun top htop h ↦ Heights.settlesWithin_iff htop hlow⟩
  exact (hlow.settle category n hn).trans Heights.reached_le_length

theorem heights_least_looping :
    looping.Built ∧
      (∀ category, ((Heights.ofGrammar looping).height? category).isSome ↔
        ∃ tokens, looping.Derives [category] tokens) ∧
      (∀ category n, (Heights.ofGrammar looping).height? category = some n ↔
        looping.LeastHeight category n) ∧
      (∀ category n, (Heights.ofGrammar looping).height? category = some n → n ≤ 4) ∧
      looping.rules.length < 2 ^ 64 - 1 ∧
      ∀ h, Heights.SettlesWithin (2 ^ 64 - 1) looping.rules (Heights.lexical looping) h ↔
        h = Heights.ofGrammar looping :=
  have h := heights_least looping looping_built
  ⟨looping_built, h.1, h.2.1, h.2.2.1, by decide, h.2.2.2 _ (by decide)⟩

end Readings
