import Readings.Proofs.Generation.Height
import Readings.Proofs.Generation.Layout

/-!
How high the trees are that are generated. What has a height can be completed whatever is chosen:
the shortest way gives a tree of exactly this height, and levels to spread over add no more than
their own number to it. So the heights are the least heights of trees.
-/

namespace Readings

open Grammar Choosing

namespace Generator

variable {σ : Type} {c : Chooser σ} {g : Grammar} {depth n : Nat} {category : String} {rule : Rule}

section Rules

theorem mem_productive_iff (hg : g.WellFormed) :
    rule ∈ (ofGrammar g depth).productive category ↔
      (rule ∈ g.rules ∧ rule.lhs = category) ∧ ((Heights.ofGrammar g).ofRule? rule).isSome := by
  rw [productive, List.mem_filter, ofGrammar, hg.alternatives_eq, List.mem_filter, beq_iff_eq]

/-- The rules that can be completed belong to categories that have a height. -/
theorem isSome_height?_of_productive (hg : g.WellFormed)
    (hr : rule ∈ (ofGrammar g depth).productive category) :
    ((Heights.ofGrammar g).height? category).isSome := by
  obtain ⟨⟨mem, rfl⟩, hsome⟩ := (mem_productive_iff hg).1 hr
  obtain ⟨k, hk⟩ := Option.isSome_iff_exists.1 hsome
  obtain ⟨n, -, hn⟩ := Heights.closed_ofGrammar hg rule mem k hk
  exact Option.isSome_of_eq_some hn

theorem productive_eq_nil (hg : g.WellFormed)
    (hnone : (Heights.ofGrammar g).height? category = none) :
    (ofGrammar g depth).productive category = [] := by
  refine List.eq_nil_iff_forall_not_mem.2 fun rule hr ↦ ?_
  have hsome := isSome_height?_of_productive hg hr
  rw [hnone] at hsome
  cases hsome

theorem exists_productive (hg : g.WellFormed) (hn : (Heights.ofGrammar g).height? category = some n)
    (hc : ¬ g.isTerminal category) :
    ∃ rule ∈ (ofGrammar g depth).productive category,
      (Heights.ofGrammar g).ofRule? rule = some n := by
  obtain ⟨rule, mem, hlhs, hrule⟩ := Heights.exists_ofRule?_eq hg hn hc
  exact ⟨rule, (mem_productive_iff hg).2 ⟨⟨mem, hlhs⟩, Option.isSome_of_eq_some hrule⟩, hrule⟩

theorem productive_ne_nil (hg : g.WellFormed) (hn : (Heights.ofGrammar g).height? category = some n)
    (hc : ¬ g.isTerminal category) : (ofGrammar g depth).productive category ≠ [] := by
  obtain ⟨rule, hr, -⟩ := exists_productive hg hn hc
  exact List.ne_nil_of_mem hr

/-- The quickest rules for a nonterminal are those of its own height. -/
theorem mem_quickest_iff (hg : g.WellFormed)
    (hn : (Heights.ofGrammar g).height? category = some n) (hc : ¬ g.isTerminal category) :
    rule ∈ (ofGrammar g depth).quickest category ↔
      (rule ∈ g.rules ∧ rule.lhs = category) ∧ (Heights.ofGrammar g).ofRule? rule = some n := by
  have hlowest : (((ofGrammar g depth).productive category).filterMap
      (ofGrammar g depth).heights.ofRule?).min? = some n := by
    refine List.min?_eq_some_iff.2 ⟨?_, fun k hk ↦ ?_⟩
    · obtain ⟨rule, hr, hrule⟩ := exists_productive hg hn hc
      exact List.mem_filterMap.2 ⟨rule, hr, hrule⟩
    · obtain ⟨rule, hr, hrule⟩ := List.mem_filterMap.1 hk
      obtain ⟨⟨mem, rfl⟩, -⟩ := (mem_productive_iff hg).1 hr
      obtain ⟨m, hm, hlhs⟩ := Heights.closed_ofGrammar hg rule mem k hrule
      rw [hn, Option.some.injEq] at hlhs
      exact hlhs ▸ hm
  rw [quickest, List.mem_filter, hlowest, mem_productive_iff hg, beq_iff_eq, and_assoc]
  refine and_congr_right fun _ ↦ and_iff_right_of_imp fun hrule ↦ Option.isSome_of_eq_some hrule

/-- Below a quickest rule everything is lower. -/
theorem exists_lt_of_quickest (hg : g.WellFormed)
    (hn : (Heights.ofGrammar g).height? category = some n) (hc : ¬ g.isTerminal category)
    (hr : rule ∈ (ofGrammar g depth).quickest category) {child : String}
    (hchild : child ∈ rule.rhs) :
    ∃ m < n, (Heights.ofGrammar g).height? child = some m :=
  Heights.height?_lt_of_ofRule? ((mem_quickest_iff hg hn hc).1 hr).2 hchild

theorem quickest_ne_nil (hg : g.WellFormed)
    (hn : (Heights.ofGrammar g).height? category = some n) (hc : ¬ g.isTerminal category) :
    (ofGrammar g depth).quickest category ≠ [] := by
  obtain ⟨rule, mem, hlhs, hrule⟩ := Heights.exists_ofRule?_eq hg hn hc
  exact List.ne_nil_of_mem ((mem_quickest_iff hg hn hc).2 ⟨⟨mem, hlhs⟩, hrule⟩)

end Rules

section Guarded

variable {build : Nat → Choosing σ Tree}

theorem guarded_of_some (hn : (Heights.ofGrammar g).height? category = some n) :
    (ofGrammar g depth).guarded category build = build :=
  if_pos (Option.isSome_of_eq_some hn)

theorem guarded_of_none (hnone : (Heights.ofGrammar g).height? category = none) :
    (ofGrammar g depth).guarded category build = fun _ ↦ throw (.unproductive category) :=
  if_neg (Option.not_isSome_iff_eq_none.2 hnone)

/-- Without a height no rule could be chosen either. -/
theorem guarded_expand (hg : g.WellFormed) {rules : List Rule}
    (hrules : rules ⊆ (ofGrammar g depth).productive category)
    (below : String → Nat → Choosing σ Tree) :
    (ofGrammar g depth).guarded category (expand c category rules below) =
      expand c category rules below := by
  cases hn : (Heights.ofGrammar g).height? category with
  | some n => exact guarded_of_some hn
  | none =>
    rw [productive_eq_nil hg hn, List.subset_nil] at hrules
    rw [guarded_of_none hn, hrules, expand_nil]

end Guarded

section Shortest

theorem shortest_of_isTerminal (hg : g.WellFormed) (hc : g.isTerminal category) (fuel : Nat) :
    (ofGrammar g depth).shortest c fuel category = (ofGrammar g depth).word c category := by
  have hn := (Heights.supported_ofGrammar hg).terminal category hc
  cases fuel with
  | zero => exact guarded_of_some hn
  | succ fuel => exact (guarded_of_some hn).trans (if_pos hc)

theorem shortest_of_not_isTerminal (hg : g.WellFormed) (hc : ¬ g.isTerminal category)
    (fuel : Nat) :
    (ofGrammar g depth).shortest c (fuel + 1) category =
      expand c category ((ofGrammar g depth).quickest category)
        ((ofGrammar g depth).shortest c fuel) := by
  rw [shortest]
  exact (congrArg _ (if_neg hc)).trans (guarded_expand hg (List.filter_subset_self _) _)

/-- With fuel enough for the height of its category, a tree is exactly as high. -/
theorem ensures_shortest (hg : g.WellFormed) {fuel : Nat}
    (hn : (Heights.ofGrammar g).height? category = some n) (hle : n ≤ fuel) (position : Nat) :
    ((ofGrammar g depth).shortest c fuel category position).Ensures fun t ↦
      t.LaidOut g category position ∧ (Heights.ofGrammar g).height? t.category = some t.height := by
  induction n using Nat.strong_induction_on generalizing category fuel position with
  | h n ih =>
    by_cases hc : g.isTerminal category
    · rw [shortest_of_isTerminal hg hc]
      refine (ensures_word hg (hg.tokensOf_ne_nil_iff.2 hc) position).mono fun t ⟨ht, hheight⟩ ↦ ?_
      rw [ht.category_eq, hheight]
      exact ⟨ht, (Heights.supported_ofGrammar hg).terminal category hc⟩
    · have hpos := Heights.height_pos hg hn hc
      obtain ⟨fuel, rfl⟩ := Nat.exists_eq_succ_of_ne_zero (Nat.ne_zero_of_lt (hpos.trans_le hle))
      rw [shortest_of_not_isTerminal hg hc]
      have hbelow : ∀ rule ∈ (ofGrammar g depth).quickest category, ∀ child ∈ rule.rhs, ∀ position,
          ((ofGrammar g depth).shortest c fuel child position).Ensures fun t ↦
            t.LaidOut g child position ∧
              (Heights.ofGrammar g).height? t.category = some t.height := by
        intro rule hr child hchild position
        obtain ⟨m, hm, hheight⟩ := exists_lt_of_quickest hg hn hc hr hchild
        exact ih m hm hheight (by omega) position
      have hrules (rule : Rule) (hr : rule ∈ (ofGrammar g depth).quickest category) :=
        ((mem_quickest_iff hg hn hc).1 hr).1
      refine (ensures_expand hg (quickest_ne_nil hg hn hc) hrules hbelow position).mono ?_
      rintro t ⟨ht, rule, hr, ts, hts, hheights, hheight⟩
      have hrule := Heights.ofRule?_of_trees hts hheights
      rw [((mem_quickest_iff hg hn hc).1 hr).2, ← hheight] at hrule
      rw [ht.category_eq, hn]
      exact ⟨ht, hrule⟩

/-- More fuel than the height of the category makes no difference. -/
theorem shortest_eq (hg : g.WellFormed) {fuel fuel' : Nat}
    (hn : (Heights.ofGrammar g).height? category = some n) (hle : n ≤ fuel) (hle' : n ≤ fuel') :
    (ofGrammar g depth).shortest c fuel category =
      (ofGrammar g depth).shortest c fuel' category := by
  induction n using Nat.strong_induction_on generalizing category fuel fuel' with
  | h n ih =>
    by_cases hc : g.isTerminal category
    · rw [shortest_of_isTerminal hg hc, shortest_of_isTerminal hg hc]
    · have hpos := Heights.height_pos hg hn hc
      obtain ⟨fuel, rfl⟩ := Nat.exists_eq_succ_of_ne_zero (Nat.ne_zero_of_lt (hpos.trans_le hle))
      obtain ⟨fuel', rfl⟩ := Nat.exists_eq_succ_of_ne_zero (Nat.ne_zero_of_lt (hpos.trans_le hle'))
      rw [shortest_of_not_isTerminal hg hc, shortest_of_not_isTerminal hg hc]
      refine expand_congr fun rule hr child hchild ↦ ?_
      obtain ⟨m, hm, hheight⟩ := exists_lt_of_quickest hg hn hc hr hchild
      exact ih m hm hheight (by omega) (by omega)

end Shortest

section Spread

theorem spread_zero (hn : (Heights.ofGrammar g).height? category = some n) :
    (ofGrammar g depth).spread c 0 category = (ofGrammar g depth).shortest c n category := by
  change (ofGrammar g depth).shortest c (((Heights.ofGrammar g).height? category).getD 0) _ = _
  rw [hn, Option.getD_some]

theorem spread_of_isTerminal (hg : g.WellFormed) (hc : g.isTerminal category) (levels : Nat) :
    (ofGrammar g depth).spread c levels category = (ofGrammar g depth).word c category := by
  cases levels with
  | zero => exact shortest_of_isTerminal hg hc _
  | succ levels =>
    have hn := (Heights.supported_ofGrammar hg).terminal category hc
    exact (guarded_of_some hn).trans (if_pos hc)

theorem spread_of_not_isTerminal (hg : g.WellFormed) (hc : ¬ g.isTerminal category)
    (levels : Nat) :
    (ofGrammar g depth).spread c (levels + 1) category =
      expand c category ((ofGrammar g depth).productive category)
        ((ofGrammar g depth).spread c levels) := by
  rw [spread]
  exact (congrArg _ (if_neg hc)).trans (guarded_expand hg (List.Subset.refl _) _)

/-- With levels to spare a tree may be higher than it has to be, by no more than these. -/
theorem ensures_spread (hg : g.WellFormed) {m : Nat}
    (hm : m ∈ upperBounds {n | ∃ c, (Heights.ofGrammar g).height? c = some n}) (levels : Nat)
    (hn : (Heights.ofGrammar g).height? category = some n) (position : Nat) :
    ((ofGrammar g depth).spread c levels category position).Ensures fun t ↦
      t.LaidOut g category position ∧ t.height ≤ levels + m := by
  induction levels generalizing category n position with
  | zero =>
    rw [spread_zero hn, Nat.zero_add]
    refine (ensures_shortest hg hn (Nat.le_refl n) position).mono fun t ⟨ht, hheight⟩ ↦ ?_
    exact ⟨ht, hm ⟨_, hheight⟩⟩
  | succ levels ih =>
    by_cases hc : g.isTerminal category
    · rw [spread_of_isTerminal hg hc]
      refine (ensures_word hg (hg.tokensOf_ne_nil_iff.2 hc) position).mono fun t ⟨ht, hheight⟩ ↦ ?_
      exact ⟨ht, hheight ▸ Nat.zero_le _⟩
    · rw [spread_of_not_isTerminal hg hc]
      have hbelow : ∀ rule ∈ (ofGrammar g depth).productive category, ∀ child ∈ rule.rhs,
          ∀ position, ((ofGrammar g depth).spread c levels child position).Ensures fun t ↦
            t.LaidOut g child position ∧ t.height ≤ levels + m := by
        intro rule hr child hchild position
        have hcovered := Heights.isSome_ofRule?_iff.1 ((mem_productive_iff hg).1 hr).2 child hchild
        obtain ⟨k, hk⟩ := Option.isSome_iff_exists.1 hcovered
        exact ih hk position
      have hrules (rule : Rule) (hr : rule ∈ (ofGrammar g depth).productive category) :=
        ((mem_productive_iff hg).1 hr).1
      refine (ensures_expand hg (productive_ne_nil hg hn hc) hrules hbelow position).mono ?_
      rintro t ⟨ht, rule, -, ts, -, hheights, hheight⟩
      have hts : (ts.map Tree.height).foldl max 0 ≤ levels + m := by
        refine foldl_max_le_iff.2 ⟨Nat.zero_le _, ?_⟩
        rwa [List.forall_mem_map]
      exact ⟨ht, by omega⟩

/-- Without a height nothing is built, at whatever level. -/
theorem spread_eq_throw (hnone : (Heights.ofGrammar g).height? category = none) (levels : Nat) :
    (ofGrammar g depth).spread c levels category = fun _ ↦ throw (.unproductive category) := by
  cases levels with
  | zero =>
    change (ofGrammar g depth).shortest c (((Heights.ofGrammar g).height? category).getD 0) _ = _
    rw [hnone]
    exact guarded_of_none hnone
  | succ levels => exact guarded_of_none hnone

end Spread

section LeastHeight

theorem leastHeight_of_height? (hg : g.WellFormed)
    (hn : (Heights.ofGrammar g).height? category = some n) : g.LeastHeight category n := by
  -- any way of choosing will do
  let first : Chooser Unit := ⟨fun _ ↦ pure 0⟩
  have htree : ((ofGrammar g 0).shortest first n category 0).Ensures _ :=
    ensures_shortest hg hn (Nat.le_refl n) 0
  obtain ⟨t, -, -, ht, hheight⟩ := htree ()
  rw [ht.category_eq, hn, Option.some.injEq] at hheight
  refine ⟨⟨t, t.tokens, ht.parses_tokens, ht.category_eq, hheight.symm⟩, ?_⟩
  rintro _ ⟨t, tokens, hparse, rfl, rfl⟩
  obtain ⟨m, hm, heq⟩ := Heights.height?_le_of_parses hg hparse
  rw [hn, Option.some.injEq] at heq
  exact heq ▸ hm

/-- The heights are the least that there are. -/
theorem leastHeight_iff (hg : g.WellFormed) :
    g.LeastHeight category n ↔ (Heights.ofGrammar g).height? category = some n := by
  constructor
  · intro h
    obtain ⟨t, tokens, hparse, rfl, -⟩ := h.1
    obtain ⟨m, -, hm⟩ := Heights.height?_le_of_parses hg hparse
    rw [hm, (leastHeight_of_height? hg hm).unique h]
  · exact leastHeight_of_height? hg

theorem isSome_height?_iff_derives (hg : g.WellFormed) :
    ((Heights.ofGrammar g).height? category).isSome ↔ ∃ tokens, g.Derives [category] tokens := by
  constructor
  · intro h
    obtain ⟨n, hn⟩ := Option.isSome_iff_exists.1 h
    obtain ⟨t, tokens, hparse, rfl, -⟩ := (leastHeight_of_height? hg hn).1
    exact ⟨_, hparse.derives⟩
  · rintro ⟨tokens, hd⟩
    exact Heights.isSome_height?_of_derives hg hd category List.mem_cons_self

end LeastHeight

end Generator

end Readings
