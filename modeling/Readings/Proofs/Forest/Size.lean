import Mathlib.Data.Nat.Choose.Basic
import Readings.Proofs.Chart.Bounds
import Readings.Proofs.Forest.Limit

/-!
The size of a forest is polynomial in the length of the sentence, however many readings there are.
The degree is the length of the longest right-hand side plus one; so is that of the number of steps
that finding the forest takes.
-/

namespace Readings

open Readings.Span Grammar

namespace Grammar

def heads (g : Grammar) : List String := (g.rules.map (·.lhs)).eraseDups

/-- What there can be nodes for: a head over each span, and the terminals of each token. -/
def possibleNodes (g : Grammar) (tokens : List String) : List Constituent :=
  (g.heads.flatMap fun head ↦ (ofSentence tokens.length).map (Constituent.mk head)) ++
    tokens.zipIdx.flatMap fun (token, i) ↦
      (g.lexicon.categoriesOf token).map (Constituent.mk · (ofWidth i 1))

def nodeBound (g : Grammar) (tokens : List String) : Nat :=
  g.heads.length * (tokens.length * (tokens.length + 1) / 2) +
    (tokens.map fun token ↦ (g.lexicon.categoriesOf token).length).sum

def applicationBound (g : Grammar) (n : Nat) : Nat :=
  (g.rules.map fun rule ↦ (n + 1).choose (rule.arity + 1)).sum

/-- The spans, for the first symbol of each rule of two or more; the spans with a position inside,
for each symbol between the first and the last. -/
def placeBound (g : Grammar) (n : Nat) : Nat :=
  (g.rules.map fun rule ↦
    if 2 ≤ rule.arity then (n + 1).choose 2 + (rule.arity - 2) * (n + 1).choose 3 else 0).sum

end Grammar

variable {g : Grammar} {tokens : List String}

namespace Forest

theorem length_possibleNodes (g : Grammar) (tokens : List String) :
    (g.possibleNodes tokens).length = g.nodeBound tokens := by
  have hspans : (ofSentence tokens.length).length = tokens.length * (tokens.length + 1) / 2 := by
    rw [length_ofSentence, Nat.choose_two_right, Nat.add_sub_cancel, Nat.mul_comm]
  have hterminals : (tokens.zipIdx.map fun p ↦ (g.lexicon.categoriesOf p.1).length) =
      tokens.map fun token ↦ (g.lexicon.categoriesOf token).length := by
    conv_rhs => rw [← List.zipIdx_map_fst 0 tokens, List.map_map]
    rfl
  rw [possibleNodes, List.length_append, List.length_flatMap, List.length_flatMap]
  simp only [List.length_map, hterminals, List.map_const', List.sum_replicate, Nat.nsmul_eq_mul,
    hspans, nodeBound]

section Bounds

variable (hg : g.WellFormed)
include hg

theorem mem_possibleNodes {k : Constituent} (hk : (g.forest tokens).chart.has k) :
    k ∈ g.possibleNodes tokens := by
  obtain ⟨⟨hin, -⟩, hk⟩ := ((grown g tokens).has_iff_terminal_or_match hg).1 hk
  rw [possibleNodes, List.mem_append, List.mem_flatMap, List.mem_flatMap]
  rcases hk with ⟨hwidth, token, htoken, entry⟩ | ⟨rule, hr, hl, -⟩
  · refine .inr ⟨(token, k.span.start), List.mk_mem_zipIdx_iff_getElem?.2 htoken, ?_⟩
    exact List.mem_map.2 ⟨k.category, Lexicon.mem_categoriesOf.2 entry,
      Tree.constituent_leaf hwidth token⟩
  · refine .inl ⟨k.category, ?_, List.mem_map_of_mem (mem_ofSentence.2 hin)⟩
    rw [heads, List.mem_eraseDups, ← hl]
    exact List.mem_map_of_mem hr

theorem size_le : (g.forest tokens).size ≤ g.nodeBound tokens := by
  have hsubset : (g.forest tokens).nodes.map (·.1) ⊆ g.possibleNodes tokens := by
    intro k hk
    rw [mem_map_fst_nodes_iff hg, isSome_node?] at hk
    exact mem_possibleNodes hg hk
  have hle := (nodes_nodup hg).length_le_of_subset hsubset
  rw [List.length_map] at hle
  exact hle.trans_eq (length_possibleNodes g tokens)

theorem length_applications_le :
    (g.forest tokens).applications.length ≤ g.applicationBound tokens.length := by
  have hcells : (g.forest tokens).applications.length = ((ofSentence tokens.length).map fun s ↦
      (g.rules.map fun rule ↦ ((g.forest tokens).chart.rows s rule).length).sum).sum := by
    rw [length_applications]
    refine congrArg List.sum (List.map_congr_left fun s hs ↦ ?_)
    have hin := mem_ofSentence.1 hs
    exact (grown g tokens).applicationCount_cell hg ⟨hin, hin.width_le⟩
  rw [hcells, sum_map_sum_comm]
  exact List.sum_le_sum fun rule hr ↦ (grown g tokens).sum_length_rows_le hg hr

theorem placeCount_le : (g.forest tokens).placeCount ≤ g.placeBound tokens.length := by
  have hcells : (g.forest tokens).placeCount = ((ofSentence tokens.length).map fun s ↦
      (g.rules.map fun rule ↦ ((List.range' 1 (rule.arity - 1)).map fun dot ↦
        ((g.forest tokens).chart.splits rule dot s).length).sum).sum).sum := by
    refine congrArg List.sum (List.map_congr_left fun s hs ↦ ?_)
    have hin := mem_ofSentence.1 hs
    exact (grown g tokens).placeCount_cell hg ⟨hin, hin.width_le⟩
  rw [hcells, sum_map_sum_comm]
  refine List.sum_le_sum fun rule hr ↦ ?_
  split
  next harity => exact (grown g tokens).sum_length_places_le hg hr harity
  next harity =>
    have hdots : rule.arity - 1 = 0 := by omega
    simp [hdots]

end Bounds

end Forest

/-- Only what starts from a nonterminal can be cut short. -/
theorem isNonterminal_of_overBudget {start : String} {b : Budget} {steps width : Nat}
    (h : enumerate g start tokens b = .error (.overBudget steps width)) : g.isNonterminal start := by
  rw [enumerate] at h
  rw [isNonterminal]
  cases hsymbol : g.symbol? start with
  | none =>
    rw [hsymbol] at h
    cases h
  | some symbol =>
    rw [hsymbol] at h
    cases hkind : symbol.kind with
    | terminal => simp [Symbol.isTerminal, hkind] at h
    | nonterminal => simp [hkind]

/-- A forest of any enumeration stays within bounds that are polynomial in the length of the
sentence, and so does what finding it costs. No enumeration is cut short by a limit that allows for
that. -/
theorem enumerate_polynomial (g : Grammar) (hg : g.Built) (tokens : List String) :
    (∀ start b f, enumerate g start tokens b = .ok f →
      f.size ≤ g.nodeBound tokens ∧ f.applications.length ≤ g.applicationBound tokens.length ∧
        f.chart.steps ≤ g.applicationBound tokens.length + g.placeBound tokens.length) ∧
    ∀ start limit, g.applicationBound tokens.length + g.placeBound tokens.length ≤ limit →
      (∀ steps width,
        enumerate g start tokens (.limited limit) ≠ .error (.overBudget steps width)) ∧
      (g.isNonterminal start → ∃ f, enumerate g start tokens (.limited limit) = .ok f) := by
  have hwf := hg.wellFormed
  have hcost : (g.forest tokens).cost tokens.length ≤
      g.applicationBound tokens.length + g.placeBound tokens.length :=
    (Forest.cost_length (g.forest tokens)).trans_le
      (Nat.add_le_add (Forest.length_applications_le hwf) (Forest.placeCount_le hwf))
  have hsucceeds {start : String} {limit : Nat} (hs : g.isNonterminal start)
      (hlimit : g.applicationBound tokens.length + g.placeBound tokens.length ≤ limit) :
      ∃ f, enumerate g start tokens (.limited limit) = .ok f :=
    (Forest.enumerate_limited_succeeds_iff hs limit).2 (hcost.trans hlimit)
  refine ⟨fun start b f hf ↦ ?_, fun start limit hlimit ↦ ⟨fun steps width hover ↦ ?_, ?_⟩⟩
  · obtain rfl := eq_forest_of_enumerate hf
    refine ⟨Forest.size_le hwf, Forest.length_applications_le hwf, ?_⟩
    exact (Forest.steps_upTo_eq_cost _).trans_le hcost
  · obtain ⟨f, hf⟩ := hsucceeds (isNonterminal_of_overBudget hover) hlimit
    rw [hover] at hf
    cases hf
  · exact fun hs ↦ hsucceeds hs hlimit

theorem enumerate_polynomial_looping :
    looping.Built ∧ looping.applicationBound 2 + looping.placeBound 2 = 13 ∧
      looping.nodeBound ["x", "x"] = 8 ∧
      ∃ f, enumerate looping "S" ["x", "x"] (.limited 13) = .ok f ∧ f.size ≤ 8 ∧
        f.applications.length ≤ 10 ∧ f.chart.steps ≤ 13 := by
  obtain ⟨hbounds, hlimits⟩ := enumerate_polynomial looping looping_built ["x", "x"]
  obtain ⟨f, hf⟩ := (hlimits "S" 13 (by decide)).2 (by decide)
  exact ⟨looping_built, by decide, by decide, f, hf, hbounds "S" _ f hf⟩

end Readings
