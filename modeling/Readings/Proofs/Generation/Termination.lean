import Readings.Proofs.Generation.Depth

/-!
Generation comes to an end inside its depth. Above the depth every visit uses up one of the levels
that are left, below it the heights go down, and nothing that is visited below a start that derives
tokens fails.
-/

namespace Readings

open Grammar Choosing

namespace Generator

variable {σ : Type} {c : Chooser σ} {g : Grammar} {depth k : Nat} {category : String} {rule : Rule}

/-- The rules that are chosen from at a depth. -/
def choicesAt (gen : Generator) (k : Nat) (category : String) : List Rule :=
  if k < gen.depth then gen.productive category else gen.quickest category

/-- The tree for a category that is met so many levels below the start. -/
def visit (gen : Generator) (c : Chooser σ) (k : Nat) (category : String) : Nat → Choosing σ Tree :=
  gen.spread c (gen.depth - k) category

/-- A visit makes others, one level deeper, to whatever a rule has on its right-hand side. -/
inductive Calls (gen : Generator) : Nat × String → Nat × String → Prop
  | child {k : Nat} {category : String} {rule : Rule} {child : String}
      (nonterminal : ¬ gen.grammar.isTerminal category) (choice : rule ∈ gen.choicesAt k category)
      (mem : child ∈ rule.rhs) : Calls gen (k + 1, child) (k, category)

/-- What is left to a visit: levels down to the depth, and below it the height. -/
def rank (g : Grammar) (depth : Nat) (call : Nat × String) : Nat × Nat :=
  (depth - call.1, ((Heights.ofGrammar g).height? call.2).getD 0)

theorem rank_lt_of_calls (hg : g.WellFormed) {callee caller : Nat × String}
    (hcall : (ofGrammar g depth).Calls callee caller) :
    Prod.Lex (· < ·) (· < ·) (rank g depth callee) (rank g depth caller) := by
  obtain @⟨k, category, rule, child, hc, hchoice, hchild⟩ := hcall
  rw [choicesAt] at hchoice
  split at hchoice
  next hk =>
    change k < depth at hk
    have hlevels : depth - (k + 1) < depth - k := by omega
    exact .left _ _ hlevels
  next hk =>
    change ¬ k < depth at hk
    have hlevels : depth - (k + 1) = depth - k := by omega
    have hsome := isSome_height?_of_productive hg (List.mem_of_mem_filter hchoice)
    obtain ⟨n, hn⟩ := Option.isSome_iff_exists.1 hsome
    obtain ⟨m, hm, hheight⟩ := exists_lt_of_quickest hg hn hc hchoice hchild
    rw [rank, rank, hlevels, hn, hheight]
    exact .right _ hm

theorem calls_wellFounded (hg : g.WellFormed) : WellFounded (ofGrammar g depth).Calls :=
  Subrelation.wf (rank_lt_of_calls hg)
    (InvImage.wf (rank g depth) (WellFounded.prod_lex Nat.lt_wfRel.wf Nat.lt_wfRel.wf))

theorem visit_of_isTerminal (hg : g.WellFormed) (hc : g.isTerminal category) (k : Nat) :
    (ofGrammar g depth).visit c k category = (ofGrammar g depth).word c category :=
  spread_of_isTerminal hg hc _

/-- Above the depth one level is used up. -/
theorem visit_above (hg : g.WellFormed) (hc : ¬ g.isTerminal category) (hk : k < depth) :
    (ofGrammar g depth).visit c k category =
      expand c category ((ofGrammar g depth).productive category)
        ((ofGrammar g depth).visit c (k + 1)) := by
  have hlevels : depth - k = depth - (k + 1) + 1 := by omega
  change (ofGrammar g depth).spread c (depth - k) category = _
  rw [hlevels]
  exact spread_of_not_isTerminal hg hc _

/-- Below the depth the height of the category is fuel enough, and what is left of it below a
quickest rule is fuel enough for the categories there. -/
theorem visit_below (hg : g.WellFormed) (hc : ¬ g.isTerminal category) (hk : depth ≤ k) :
    (ofGrammar g depth).visit c k category =
      expand c category ((ofGrammar g depth).quickest category)
        ((ofGrammar g depth).visit c (k + 1)) := by
  have hhere : depth - k = 0 := by omega
  have hbelow : depth - (k + 1) = 0 := by omega
  change (ofGrammar g depth).spread c (depth - k) category =
    expand c category _ ((ofGrammar g depth).spread c (depth - (k + 1)))
  rw [hhere, hbelow]
  cases hn : (Heights.ofGrammar g).height? category with
  | none =>
    have hquickest : (ofGrammar g depth).quickest category = [] := by
      rw [quickest, productive_eq_nil hg hn]
      rfl
    rw [spread_eq_throw hn, hquickest, expand_nil]
  | some n =>
    obtain ⟨n, rfl⟩ := Nat.exists_eq_succ_of_ne_zero (Heights.height_pos hg hn hc).ne'
    rw [spread_zero hn, shortest_of_not_isTerminal hg hc]
    refine expand_congr fun rule hr child hchild ↦ ?_
    obtain ⟨m, hm, hheight⟩ := exists_lt_of_quickest hg hn hc hr hchild
    rw [spread_zero hheight]
    exact shortest_eq hg hheight (Nat.le_of_lt_succ hm) (Nat.le_refl m)

theorem visit_of_not_isTerminal (hg : g.WellFormed) (hc : ¬ g.isTerminal category) (k : Nat) :
    (ofGrammar g depth).visit c k category =
      expand c category ((ofGrammar g depth).choicesAt k category)
        ((ofGrammar g depth).visit c (k + 1)) := by
  rw [choicesAt]
  split
  next hk => exact visit_above hg hc hk
  next hk => exact visit_below hg hc (Nat.le_of_not_lt hk)

section Tree

variable {start : String} {n m : Nat}

theorem tree_eq_visit (hs : (g.symbol? start).isSome) :
    (ofGrammar g depth).tree c start = (ofGrammar g depth).visit c 0 start 0 := by
  obtain ⟨symbol, hsymbol⟩ := Option.isSome_iff_exists.1 hs
  simp only [tree, ofGrammar, hsymbol]
  rfl

theorem tree_eq_throw (hs : (g.symbol? start).isSome)
    (hnone : (Heights.ofGrammar g).height? start = none) :
    (ofGrammar g depth).tree c start = throw (.unproductive start) := by
  rw [tree_eq_visit hs, visit, spread_eq_throw hnone]

/-- A tree for a start that fits a depth. It exceeds the height that the most demanding category
needs by no more than the depth, and at depth 0 it is as low as the start allows. -/
structure Fits (g : Grammar) (start : String) (depth : Nat) (t : Tree) : Prop where
  parses : t.Parses g t.tokens
  category_eq : t.category = start
  height_le : ∃ m, IsGreatest {n | ∃ category, g.LeastHeight category n} m ∧ t.height ≤ depth + m
  least : depth = 0 → g.LeastHeight start t.height

theorem ensures_tree (hg : g.WellFormed) (hs : (g.symbol? start).isSome)
    (hd : ∃ tokens, g.Derives [start] tokens) :
    ((ofGrammar g depth).tree c start).Ensures (Fits g start depth) := by
  obtain ⟨n, hn⟩ := Option.isSome_iff_exists.1 ((isSome_height?_iff_derives hg).2 hd)
  obtain ⟨m, hm⟩ := Heights.exists_greatest hn
  have hgreatest : IsGreatest {n | ∃ category, g.LeastHeight category n} m := by
    simpa only [leastHeight_iff hg] using hm
  rw [tree_eq_visit hs]
  cases depth with
  | zero =>
    change ((ofGrammar g 0).spread c 0 start 0).Ensures _
    rw [spread_zero hn]
    refine (ensures_shortest hg hn (Nat.le_refl n) 0).mono fun t ⟨ht, hheight⟩ ↦ ?_
    have hle : t.height ≤ m := hm.2 ⟨_, hheight⟩
    rw [ht.category_eq] at hheight
    exact ⟨ht.parses_tokens, ht.category_eq, ⟨m, hgreatest, hle.trans (Nat.le_add_left m 0)⟩,
      fun _ ↦ leastHeight_of_height? hg hheight⟩
  | succ depth =>
    refine (ensures_spread hg hm.2 (depth + 1) hn 0).mono fun t ⟨ht, hheight⟩ ↦ ?_
    exact ⟨ht.parses_tokens, ht.category_eq, ⟨m, hgreatest, hheight⟩, nofun⟩

theorem throws_sentence_iff (hg : g.WellFormed) (hs : (g.symbol? start).isSome) (s : σ) :
    ((ofGrammar g depth).sentence c start).Throws s (.unproductive start) ↔
      ¬ ∃ tokens, g.Derives [start] tokens := by
  constructor
  · intro hthrows hd
    have htree : ((ofGrammar g depth).tree c start).Ensures _ := ensures_tree hg hs hd
    obtain ⟨t, s', hgives, -⟩ := htree s
    exact hgives.map.not_throws hthrows
  · intro hd
    rw [← isSome_height?_iff_derives hg, Option.not_isSome_iff_eq_none] at hd
    rw [sentence, tree_eq_throw hs hd]
    rfl

end Tree

end Generator

/-- From a symbol of the grammar generation comes to an end, whatever is chosen. Visits follow a
recursion that is well-founded, and a visit to a category without a height is turned away. It fails
if and only if the symbol derives nothing, and with the symbol itself as the cause; if it does not
fail, the sentence is that of a tree within the depth. -/
theorem sentence_within_depth (g : Grammar) (hg : g.Built) (start : String)
    (hs : (g.symbol? start).isSome) (depth : Nat) :
    WellFounded (Generator.ofGrammar g depth).Calls ∧
      ∀ (σ : Type) (c : Chooser σ),
        (Generator.ofGrammar g depth).tree c start =
            (Generator.ofGrammar g depth).visit c 0 start 0 ∧
          (∀ k category,
            (Generator.ofGrammar g depth).visit c k category =
              if g.isTerminal category then (Generator.ofGrammar g depth).word c category
              else Generator.expand c category
                ((Generator.ofGrammar g depth).choicesAt k category)
                ((Generator.ofGrammar g depth).visit c (k + 1))) ∧
          (∀ k category, (Heights.ofGrammar g).height? category = none →
            (Generator.ofGrammar g depth).visit c k category =
              fun _ ↦ throw (.unproductive category)) ∧
          ∀ s,
            (((Generator.ofGrammar g depth).sentence c start).Throws s (.unproductive start) ↔
              ¬ ∃ tokens, g.Derives [start] tokens) ∧
            ((∃ tokens, g.Derives [start] tokens) →
              ∃ t s', ((Generator.ofGrammar g depth).tree c start).Gives s t s' ∧
                ((Generator.ofGrammar g depth).sentence c start).Gives s t.tokens s' ∧
                Generator.Fits g start depth t) := by
  have hwf := hg.wellFormed
  refine ⟨Generator.calls_wellFounded hwf, fun σ c ↦ ⟨Generator.tree_eq_visit hs, ?_,
    fun k category hnone ↦ Generator.spread_eq_throw hnone _, fun s ↦
    ⟨Generator.throws_sentence_iff hwf hs s, fun hd ↦ ?_⟩⟩⟩
  · intro k category
    split
    next hc => exact Generator.visit_of_isTerminal hwf hc k
    next hc => exact Generator.visit_of_not_isTerminal hwf hc k
  · obtain ⟨t, s', hgives, ht⟩ := Generator.ensures_tree hwf hs hd s
    exact ⟨t, s', hgives, hgives.map, ht⟩

theorem sentence_within_depth_looping :
    looping.Built ∧ (looping.symbol? "S").isSome ∧ (∃ tokens, looping.Derives ["S"] tokens) ∧
      WellFounded (Generator.ofGrammar looping 2).Calls ∧
        ∀ (σ : Type) (c : Chooser σ),
          (Generator.ofGrammar looping 2).tree c "S" =
              (Generator.ofGrammar looping 2).visit c 0 "S" 0 ∧
            (∀ k category,
              (Generator.ofGrammar looping 2).visit c k category =
                if looping.isTerminal category then (Generator.ofGrammar looping 2).word c category
                else Generator.expand c category
                  ((Generator.ofGrammar looping 2).choicesAt k category)
                  ((Generator.ofGrammar looping 2).visit c (k + 1))) ∧
            (∀ k category, (Heights.ofGrammar looping).height? category = none →
              (Generator.ofGrammar looping 2).visit c k category =
                fun _ ↦ throw (.unproductive category)) ∧
            ∀ s,
              (((Generator.ofGrammar looping 2).sentence c "S").Throws s (.unproductive "S") ↔
                ¬ ∃ tokens, looping.Derives ["S"] tokens) ∧
              ((∃ tokens, looping.Derives ["S"] tokens) →
                ∃ t s', ((Generator.ofGrammar looping 2).tree c "S").Gives s t s' ∧
                  ((Generator.ofGrammar looping 2).sentence c "S").Gives s t.tokens s' ∧
                  Generator.Fits looping "S" 2 t) :=
  ⟨looping_built, by decide, ⟨_, looping_derives 0⟩,
    sentence_within_depth looping looping_built "S" (by decide) 2⟩

end Readings
