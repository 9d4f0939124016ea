import Readings.Proofs.Grammar.Variant
import Readings.Proofs.Tree.Simple

/-!
Trees and applications under a change of the numbers of their rules. The place of a tree and the
paths through it do not depend on how rules are numbered.
-/

namespace Readings

open Grammar

/-- The rule apart from its place in the order of declaration. -/
def Rule.unnumbered (r : Rule) : Rule := ⟨r.toProduction, 0⟩

def Application.mapRule (φ : Rule → Rule) (a : Application) : Application := ⟨φ a.rule, a.children⟩

def Application.unnumbered : Application → Application := mapRule Rule.unnumbered

theorem Rule.unnumbered_congr {r r' : Rule} (h : r.toProduction = r'.toProduction) :
    r.unnumbered = r'.unnumbered := congrArg (Rule.mk · 0) h

theorem Application.unnumbered_mapRule {φ : Rule → Rule}
    (hφ : ∀ r, (φ r).toProduction = r.toProduction) (a : Application) :
    (a.mapRule φ).unnumbered = a.unnumbered :=
  congrArg (Application.mk · a.children) (Rule.unnumbered_congr (hφ a.rule))

namespace Tree

def mapRules (φ : Rule → Rule) : Tree → Tree := fold .leaf fun rule ↦ .node (φ rule)

def unnumbered : Tree → Tree := mapRules Rule.unnumbered

section MapRules

variable {φ ψ : Rule → Rule}

@[simp] theorem mapRules_leaf (terminal token : String) (position : Nat) :
    mapRules φ (.leaf terminal token position) = .leaf terminal token position := rfl

@[simp] theorem mapRules_node (rule : Rule) (span : Span) (children : List Tree) :
    mapRules φ (.node rule span children) = .node (φ rule) span (children.map (mapRules φ)) :=
  fold_node ..

theorem mapRules_mapRules (t : Tree) : mapRules φ (mapRules ψ t) = mapRules (φ ∘ ψ) t := by
  induction t with
  | leaf => rfl
  | node rule span children ih =>
    rw [mapRules_node, mapRules_node, mapRules_node, List.map_map]
    exact congrArg (node _ span) (List.map_congr_left ih)

variable (hφ : ∀ r, (φ r).toProduction = r.toProduction)
include hφ

theorem unnumbered_mapRules (t : Tree) : (mapRules φ t).unnumbered = t.unnumbered := by
  have hsame : Rule.unnumbered ∘ φ = Rule.unnumbered :=
    funext fun r ↦ Rule.unnumbered_congr (hφ r)
  rw [unnumbered, mapRules_mapRules, hsame]

theorem constituent_mapRules (t : Tree) : (mapRules φ t).constituent = t.constituent := by
  cases t with
  | leaf => rfl
  | node rule span children =>
    rw [mapRules_node]
    exact congrArg (Constituent.mk · span) (congrArg Production.lhs (hφ rule))

theorem paths_mapRules (t : Tree) : (mapRules φ t).paths = t.paths := by
  induction t with
  | leaf => rfl
  | node rule span children ih =>
    rw [mapRules_node, paths_node, paths_node, List.flatMap_map, List.flatMap_congr ih, hφ]

theorem simple_mapRules_iff {t : Tree} : (mapRules φ t).Simple ↔ t.Simple := by
  rw [Simple, paths_mapRules hφ, Simple]

end MapRules

variable {g g' : Grammar} {tokens : List String}

/-- A parse under a grammar is one under every grammar that has its rules, by other numbers. -/
theorem Parses.mapRules_renumber (h : g.Within g') {t : Tree} (ht : t.Parses g tokens) :
    (t.mapRules g'.renumber).Parses g' tokens := by
  have hplace := constituent_mapRules (toProduction_renumber g')
  induction ht with
  | leaf here entry => exact .leaf here (h.entries _ entry)
  | @node rule span children mem matched tile below ih =>
    obtain ⟨-, hmatched, htile, -⟩ := parses_node_iff.1 (.node mem matched tile below)
    have hsame : (children.map (mapRules g'.renumber)).map constituent =
        children.map constituent := by
      rw [List.map_map]
      exact List.map_congr_left fun t _ ↦ hplace t
    rw [mapRules_node, parses_node_iff, hsame, toProduction_renumber]
    refine ⟨renumber_mem (h.rules rule mem), hmatched, htile, fun t ht ↦ ?_⟩
    obtain ⟨u, hu, rfl⟩ := List.mem_map.1 ht
    exact ih u hu

theorem Parses.mapRules_renumber_renumber (hg : g.Built) {t : Tree} (ht : t.Parses g tokens) :
    (t.mapRules g'.renumber).mapRules g.renumber = t := by
  rw [mapRules_mapRules]
  induction ht with
  | leaf => rfl
  | @node rule span children mem _ _ _ ih =>
    rw [mapRules_node, List.map_congr_left ih, List.map_id', Function.comp_apply,
      hg.renumber_eq mem (toProduction_renumber g' rule)]

end Tree

end Readings
