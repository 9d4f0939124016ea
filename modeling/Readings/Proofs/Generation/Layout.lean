import Readings.Proofs.Generation.Choice
import Readings.Proofs.Tree.Height

/-!
How trees are laid out that are put together one after another, each beginning where the one before
it stops: over the tokens that they yield, wherever these stand.
-/

namespace Readings

open Grammar Choosing

variable {g : Grammar}

/-- A tree for the category that parses its tokens in whatever sentence has them at the position. -/
structure Tree.LaidOut (g : Grammar) (category : String) (position : Nat) (t : Tree) : Prop where
  category_eq : t.category = category
  span_eq : t.span = ⟨position, position + t.tokens.length⟩
  parses : ∀ sentence, t.tokens <+: sentence.drop position → t.Parses g sentence

/-- Trees for the categories, side by side from the position on. -/
structure Tree.RowLaidOut (g : Grammar) (categories : List String) (position : Nat)
    (ts : List Tree) : Prop where
  categories_eq : ts.map category = categories
  tile : Span.Tile (ts.map span) position (position + (ts.map tokens).flatten.length)
  parses : ∀ sentence, (ts.map tokens).flatten <+: sentence.drop position →
    ∀ t ∈ ts, t.Parses g sentence

namespace Tree

variable {category : String} {categories : List String} {position : Nat} {t : Tree}
  {ts : List Tree}

theorem laidOut_leaf {token : String} (entry : ⟨token, category⟩ ∈ g.lexicon.entries) :
    LaidOut g category position (.leaf category token position) where
  category_eq := rfl
  span_eq := rfl
  parses sentence here := by
    obtain ⟨after, hafter⟩ := here
    refine .leaf ?_ entry
    have h := congrArg (·[0]?) hafter
    simpa [Tree.tokens] using h.symm

theorem LaidOut.start_lt_stop (hg : g.WellFormed) (ht : LaidOut g category position t) :
    t.span.start < t.span.stop := by
  -- any sentence will do that has the tokens in their place
  have here : t.tokens <+: (List.replicate position "" ++ t.tokens).drop position := by simp
  exact (ht.parses _ here).start_lt_stop hg

theorem LaidOut.parses_tokens (ht : LaidOut g category 0 t) : t.Parses g t.tokens :=
  ht.parses _ (List.prefix_refl _)

theorem rowLaidOut_nil : RowLaidOut g [] position [] where
  categories_eq := rfl
  tile := .nil
  parses := by simp

theorem LaidOut.cons (hg : g.WellFormed) (ht : LaidOut g category position t)
    (hts : RowLaidOut g categories t.span.stop ts) :
    RowLaidOut g (category :: categories) position (t :: ts) := by
  have hspan := ht.span_eq
  have hstop : t.span.stop = position + t.tokens.length := congrArg Span.stop hspan
  constructor
  · rw [List.map_cons, ht.category_eq, hts.categories_eq]
  · have htile := hts.tile
    rw [List.map_cons, List.map_cons, List.flatten_cons, List.length_append, ← Nat.add_assoc,
      ← hstop]
    exact Span.tile_cons_iff.2 ⟨congrArg Span.start hspan, ht.start_lt_stop hg, hts.tile⟩
  · intro sentence here
    rw [List.map_cons, List.flatten_cons] at here
    obtain ⟨after, hafter⟩ := here
    rw [List.append_assoc] at hafter
    refine List.forall_mem_cons.2 ⟨ht.parses sentence ⟨_, hafter⟩, hts.parses sentence ⟨after, ?_⟩⟩
    rw [hstop, ← List.drop_drop, ← hafter, List.drop_left]

theorem RowLaidOut.node {rule : Rule} (mem : rule ∈ g.rules)
    (hts : RowLaidOut g rule.rhs position ts) :
    LaidOut g rule.lhs position
      (.node rule ⟨position, (ts.getLast?.map (·.span.stop)).getD position⟩ ts) := by
  have hstop := hts.tile.stop_eq
  rw [List.getLast?_map, Option.map_map] at hstop
  have htokens (s : Span) : (Tree.node rule s ts).tokens = (ts.map tokens).flatten := by
    rw [tokens, fold_node]
  constructor
  · rfl
  · rw [htokens, ← hstop]
    rfl
  · intro sentence here
    rw [htokens] at here
    exact .node mem hts.categories_eq (hstop ▸ hts.tile) (hts.parses sentence here)

end Tree

namespace Generator

variable {σ : Type} {c : Chooser σ} {category : String} {P : Tree → Prop}

theorem ensures_word {gen : Generator} (hg : gen.grammar.WellFormed)
    (hwords : gen.grammar.lexicon.tokensOf category ≠ [])
    (position : Nat) :
    (gen.word c category position).Ensures fun t ↦
      t.LaidOut gen.grammar category position ∧ t.height = 0 := by
  refine (ensures_oneOf hwords).bind fun token htoken ↦ ensures_pure ?_
  exact ⟨Tree.laidOut_leaf ((hg.mem_tokensOf_iff token category).1 htoken), rfl⟩

theorem expand_nil (below : String → Nat → Choosing σ Tree) :
    expand c category [] below = fun _ ↦ throw (.unproductive category) := rfl

/-- Tree by tree, what every tree is sure to have all of them have. -/
theorem ensures_sequence (hg : g.WellFormed) {below : String → Nat → Choosing σ Tree}
    {categories : List String}
    (h : ∀ category ∈ categories, ∀ position,
      (below category position).Ensures fun t ↦ t.LaidOut g category position ∧ P t)
    (position : Nat) :
    (sequence below categories position).Ensures fun ts ↦
      Tree.RowLaidOut g categories position ts ∧ ∀ t ∈ ts, P t := by
  induction categories generalizing position with
  | nil => exact ensures_pure ⟨Tree.rowLaidOut_nil, by simp⟩
  | cons category categories ih =>
    obtain ⟨hfirst, hrest⟩ := List.forall_mem_cons.1 h
    refine (hfirst position).bind fun t ⟨ht, hP⟩ ↦ ?_
    refine (ih hrest t.span.stop).bind fun ts ⟨hts, hPs⟩ ↦ ensures_pure ?_
    exact ⟨ht.cons hg hts, List.forall_mem_cons.2 ⟨hP, hPs⟩⟩

/-- What the trees below have, and how high the tree above them is. -/
theorem ensures_expand (hg : g.WellFormed) {below : String → Nat → Choosing σ Tree}
    {rules : List Rule} (hne : rules ≠ [])
    (hrules : ∀ rule ∈ rules, rule ∈ g.rules ∧ rule.lhs = category)
    (h : ∀ rule ∈ rules, ∀ child ∈ rule.rhs, ∀ position,
      (below child position).Ensures fun t ↦ t.LaidOut g child position ∧ P t)
    (position : Nat) :
    (expand c category rules below position).Ensures fun t ↦
      t.LaidOut g category position ∧ ∃ rule ∈ rules, ∃ ts : List Tree,
        ts.map Tree.category = rule.rhs ∧ (∀ t ∈ ts, P t) ∧
          t.height = (ts.map Tree.height).foldl max 0 + 1 := by
  refine (ensures_oneOf hne).bind fun rule hr ↦ ?_
  refine (ensures_sequence hg (h rule hr) position).bind fun ts ⟨hts, hP⟩ ↦ ensures_pure ?_
  obtain ⟨mem, rfl⟩ := hrules rule hr
  exact ⟨hts.node mem, rule, hr, ts, hts.categories_eq, hP, Tree.height_node ..⟩

theorem sequence_congr {below below' : String → Nat → Choosing σ Tree} {categories : List String}
    (h : ∀ category ∈ categories, below category = below' category) :
    sequence below categories = sequence below' categories := by
  induction categories with
  | nil => rfl
  | cons category categories ih =>
    obtain ⟨hfirst, hrest⟩ := List.forall_mem_cons.1 h
    funext position
    rw [sequence, sequence, hfirst, ih hrest]

/-- Only what the rules ask for matters of what is built below. -/
theorem expand_congr {rules : List Rule} {below below' : String → Nat → Choosing σ Tree}
    (h : ∀ rule ∈ rules, ∀ child ∈ rule.rhs, below child = below' child) :
    expand c category rules below = expand c category rules below' := by
  funext position
  refine bind_congr_of_gives fun s rule s' hgives ↦ ?_
  rw [sequence_congr (h rule (mem_of_oneOf hgives))]

end Generator

end Readings
