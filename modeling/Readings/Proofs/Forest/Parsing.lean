import Readings.Proofs.Chart.Applications
import Readings.Proofs.Forest.Budget
import Readings.Proofs.Tree.Derivation

/-!
An enumeration that is not cut short gives the forest of the whole sentence, and this forest holds
a constituent if and only if the constituent has a parse.
-/

namespace Readings

open Readings.Span Grammar

variable {g : Grammar} {tokens : List String}

/-- The forest of a sentence, whatever it costs. -/
def Grammar.forest (g : Grammar) (tokens : List String) : Forest :=
  ⟨g, tokens, Chart.upTo g tokens tokens.length⟩

/-- From a nonterminal, only the budget can fail. -/
theorem enumerate_eq {start : String} (hs : g.isNonterminal start) (b : Budget) :
    enumerate g start tokens b =
      match b.overrun? (fun w ↦ (Chart.upTo g tokens w).steps) tokens.length with
      | some (steps, width) => .error (.overBudget steps width)
      | none => .ok (g.forest tokens) := by
  obtain ⟨symbol, hsymbol, hkind⟩ := (Option.any_eq_true _ _).1 hs
  have hterminal : symbol.isTerminal = false := by
    rw [Symbol.isTerminal, beq_iff_eq.1 hkind]
    rfl
  simp only [enumerate, hsymbol, hterminal, Chart.ofSentence_eq]
  cases b.overrun? (fun w ↦ (Chart.upTo g tokens w).steps) tokens.length <;> rfl

/-- An enumeration that succeeds has not been cut short, whatever its budget. -/
theorem eq_forest_of_enumerate {start : String} {b : Budget} {f : Forest}
    (h : enumerate g start tokens b = .ok f) : f = g.forest tokens := by
  rw [enumerate] at h
  split at h
  · cases h
  · split at h
    · cases h
    · rw [Chart.ofSentence_eq] at h
      cases hover : b.overrun? (fun w ↦ (Chart.upTo g tokens w).steps) tokens.length with
      | some limit =>
        rw [hover] at h
        cases h
      | none =>
        rw [hover] at h
        cases h
        rfl

theorem enumerate_unlimited {start : String} (hs : g.isNonterminal start) :
    enumerate g start tokens .unlimited = .ok (g.forest tokens) := by
  rw [enumerate_eq hs, Budget.overrun?_unlimited]

namespace Forest

theorem grown (g : Grammar) (tokens : List String) :
    Chart.Grown g tokens tokens.length (g.forest tokens).chart :=
  Chart.grown_upTo g tokens tokens.length

theorem isSome_node? (f : Forest) (k : Constituent) : (f.node? k).isSome = f.chart.has k :=
  Chart.isSome_node? f.chart k

/-- The list of nodes is the table of nodes, in some order. -/
theorem mem_nodes_iff (hg : g.WellFormed) {k : Constituent} {n : Node} :
    (k, n) ∈ (g.forest tokens).nodes ↔ (g.forest tokens).node? k = some n := by
  have hget := Node.get?_eq_some_iff ((grown g tokens).cell_nodup hg k.span) (c := k.category)
    (n := n)
  rw [nodes, node?, Chart.node?]
  rw [hget]
  simp only [List.mem_flatMap, List.mem_map, Prod.mk.injEq, mem_ofSentence]
  constructor
  · intro h
    obtain ⟨s, _, m, hm, hk, hmn⟩ := h
    subst hk hmn
    exact ⟨hm, rfl⟩
  · intro h
    obtain ⟨hn, hcategory⟩ := h
    have hhas : (g.forest tokens).chart.has k := Node.has_iff.2 ⟨n, hn, hcategory⟩
    exact ⟨k.span, (grown g tokens).inSentence hhas, n, hn, by rw [hcategory], rfl⟩

theorem mem_map_fst_nodes_iff (hg : g.WellFormed) {k : Constituent} :
    k ∈ (g.forest tokens).nodes.map (·.1) ↔ ((g.forest tokens).node? k).isSome := by
  rw [List.mem_map, Option.isSome_iff_exists]
  constructor
  · intro h
    obtain ⟨p, hp, rfl⟩ := h
    exact ⟨p.2, (mem_nodes_iff hg).1 hp⟩
  · intro h
    obtain ⟨n, hn⟩ := h
    exact ⟨(k, n), (mem_nodes_iff hg).2 hn, rfl⟩

theorem nodes_nodup (hg : g.WellFormed) : ((g.forest tokens).nodes.map (·.1)).Nodup := by
  rw [nodes]
  rw [List.map_flatMap, List.nodup_flatMap]
  refine ⟨fun s _ ↦ ?_, (ofSentence_nodup _).imp fun {s s'} hne k hk hk' ↦ hne ?_⟩
  · have h := ((grown g tokens).cell_nodup hg s).map (f := fun category ↦ Constituent.mk category s)
      fun x y hxy ↦ congrArg Constituent.category hxy
    rw [List.map_map] at h ⊢
    exact h
  · obtain ⟨_, hp, rfl⟩ := List.mem_map.1 hk
    obtain ⟨_, hp', he⟩ := List.mem_map.1 hk'
    obtain ⟨_, _, rfl⟩ := List.mem_map.1 hp
    obtain ⟨_, _, rfl⟩ := List.mem_map.1 hp'
    exact (congrArg Constituent.span he).symm

/-- Trees side by side match the categories at their roots. -/
theorem matches_map_constituent {c : Chart} {ts : List Tree} {start stop : Nat}
    (tile : Tile (ts.map Tree.span) start stop) (h : ∀ t ∈ ts, c.has t.constituent) :
    c.Matches (ts.map Tree.category) start stop (ts.map Tree.constituent) := by
  rw [Chart.Matches, List.map_map, List.map_map, List.forall_mem_map]
  exact ⟨rfl, tile, h⟩

theorem has_of_parses (hg : g.WellFormed) {t : Tree} (h : t.Parses g tokens) :
    (g.forest tokens).chart.has t.constituent := by
  have hin {t : Tree} (h : t.Parses g tokens) :
      t.span.InSentence tokens.length ∧ t.span.width ≤ tokens.length := by
    have hin : t.span.InSentence tokens.length := ⟨h.start_lt_stop hg, h.stop_le hg⟩
    exact ⟨hin, hin.width_le⟩
  induction h with
  | leaf here entry =>
    rw [(grown g tokens).has_iff_terminal_or_match hg]
    exact ⟨hin (.leaf here entry), .inl ⟨width_ofWidth _ 1, _, here, entry⟩⟩
  | @node rule span children mem matched tile below ih =>
    rw [(grown g tokens).has_iff_terminal_or_match hg]
    refine ⟨hin (.node mem matched tile below), .inr ⟨rule, mem, rfl, ?_⟩⟩
    exact ⟨_, matched ▸ matches_map_constituent tile ih⟩

theorem exists_parse_of_has (hg : g.WellFormed) {k : Constituent}
    (h : (g.forest tokens).chart.has k) : ∃ t : Tree, t.Parses g tokens ∧ t.constituent = k := by
  refine (grown g tokens).has_induction hg
    (P := fun k ↦ ∃ t : Tree, t.Parses g tokens ∧ t.constituent = k) (fun k _ hk ↦ ?_)
    (fun k rule children hr hl hmatch ih ↦ ?_) h
  · obtain ⟨hw, token, here, entry⟩ := hk
    exact ⟨_, .leaf here entry, Tree.constituent_leaf hw token⟩
  · choose! tree hparse htree using ih
    have hsame : (children.map tree).map Tree.constituent = children := by
      rw [List.map_map]
      exact (List.map_congr_left htree).trans (List.map_id' _)
    refine ⟨.node rule k.span (children.map tree), ?_, ?_⟩
    · rw [Tree.parses_node_iff, hsame]
      refine ⟨hr, hmatch.1, hmatch.2.1, fun t ht ↦ ?_⟩
      obtain ⟨k, hk, rfl⟩ := List.mem_map.1 ht
      exact hparse k hk
    · cases k
      simp_all [Tree.constituent, Tree.category, Tree.span]

theorem has_iff_exists_parse (hg : g.WellFormed) {k : Constituent} :
    (g.forest tokens).chart.has k ↔ ∃ t : Tree, t.Parses g tokens ∧ t.constituent = k := by
  constructor
  · exact exists_parse_of_has hg
  · intro h
    obtain ⟨t, ht, hk⟩ := h
    exact hk ▸ has_of_parses hg ht

end Forest

end Readings
