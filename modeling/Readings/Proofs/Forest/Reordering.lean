import Readings.Proofs.Chart.Steps
import Readings.Proofs.Forest.Counting
import Readings.Proofs.Forest.Reading
import Readings.Proofs.Tree.Renumbering

/-!
The order in which the rules of a grammar are declared changes neither what is found nor what it
costs. It does change the numbers of rules and symbols, and with them the order of what is found.
-/

namespace Readings

open Readings.Span Grammar

/-- The forests agree up to order and to the numbers of rules. -/
structure Forest.SameFindings (f f' : Forest) : Prop where
  nodes : (f.nodes.map (·.1)).Perm (f'.nodes.map (·.1))
  applications : ∀ k n n', f.node? k = some n → f'.node? k = some n' →
    (n.applications.map (·.unnumbered)).Perm (n'.applications.map (·.unnumbered))
  steps : f.chart.steps = f'.chart.steps
  readingCount : ∀ name, f.readingCount name = f'.readingCount name
  readings : ∀ name,
    ((f.readings name).map (·.unnumbered)).Perm ((f'.readings name).map (·.unnumbered))

variable {g g' : Grammar} {tokens : List String}

section Variant

variable (hg : g.Built) (hg' : g'.Built) (hgg' : g.Within g') (hg'g : g'.Within g)
include hg hg'

namespace Forest

section Within

include hgg'

theorem mapRule_mem_applications {k : Constituent} {n n' : Node}
    (hn : (g.forest tokens).node? k = some n) (hn' : (g'.forest tokens).node? k = some n')
    {a : Application} (ha : a ∈ n.applications) :
    a.mapRule g'.renumber ∈ n'.applications := by
  obtain ⟨hr, hl, hmatched, htile, hnodes⟩ := (mem_applications_iff hg.wellFormed hn).1 ha
  rw [mem_applications_iff hg'.wellFormed hn', Application.mapRule, toProduction_renumber]
  refine ⟨renumber_mem (hgg'.rules _ hr), hl, hmatched, htile, fun child hchild ↦ ?_⟩
  exact isSome_node?_of_within hg.wellFormed hg'.wellFormed hgg' (hnodes child hchild)

theorem mapRules_mem_readings {name : String} (hname : g.isNonterminal name)
    (hname' : g'.isNonterminal name) {t : Tree} (ht : t ∈ (g.forest tokens).readings name) :
    t.mapRules g'.renumber ∈ (g'.forest tokens).readings name := by
  obtain ⟨⟨hparses, hsimple⟩, hroot⟩ := (mem_readings_iff hg.wellFormed hname).1 ht
  rw [mem_readings_iff hg'.wellFormed hname', Tree.simple_mapRules_iff (toProduction_renumber g'),
    Tree.constituent_mapRules (toProduction_renumber g')]
  exact ⟨⟨hparses.mapRules_renumber hgg', hsimple⟩, hroot⟩

end Within

include hgg' hg'g

theorem nodes_perm :
    ((g.forest tokens).nodes.map (·.1)).Perm ((g'.forest tokens).nodes.map (·.1)) := by
  have hmem {g : Grammar} (hg : g.Built) (k : Constituent) :
      k ∈ (g.forest tokens).nodes.map (·.1) ↔ ((g.forest tokens).node? k).isSome := by
    rw [Option.isSome_iff_exists]
    simp [mem_nodes_iff hg.wellFormed]
  refine (List.perm_ext_iff_of_nodup (nodes_nodup hg.wellFormed) (nodes_nodup hg'.wellFormed)).2 ?_
  intro k
  rw [hmem hg, hmem hg']
  exact ⟨isSome_node?_of_within hg.wellFormed hg'.wellFormed hgg',
    isSome_node?_of_within hg'.wellFormed hg.wellFormed hg'g⟩

theorem applications_perm {k : Constituent} {n n' : Node}
    (hn : (g.forest tokens).node? k = some n) (hn' : (g'.forest tokens).node? k = some n') :
    (n.applications.map (·.mapRule g'.renumber)).Perm n'.applications := by
  have hback {g g' : Grammar} (hg : g.Built) {n : Node} (hn : (g.forest tokens).node? k = some n)
      {a : Application} (ha : a ∈ n.applications) :
      (a.mapRule g'.renumber).mapRule g.renumber = a := by
    obtain ⟨hr, -⟩ := (mem_applications_iff hg.wellFormed hn).1 ha
    rw [Application.mapRule, Application.mapRule, hg.renumber_eq hr (toProduction_renumber g' _)]
  refine map_perm_of_inverse (g := (·.mapRule g.renumber))
    ((grown g tokens).applications_nodup hg.wellFormed hn)
    ((grown g' tokens).applications_nodup hg'.wellFormed hn') (fun a ha ↦ ?_) fun a' ha' ↦ ?_
  · exact ⟨mapRule_mem_applications hg hg' hgg' hn hn' ha, hback hg hn ha⟩
  · exact ⟨mapRule_mem_applications hg' hg hg'g hn' hn ha', hback hg' hn' ha'⟩

theorem readings_perm {name : String} (hname : g.isNonterminal name ↔ g'.isNonterminal name) :
    (((g.forest tokens).readings name).map (·.mapRules g'.renumber)).Perm
      ((g'.forest tokens).readings name) := by
  by_cases hnonterminal : g.isNonterminal name
  · have hnonterminal' := hname.1 hnonterminal
    have hback {g g' : Grammar} (hg : g.Built) (hname : g.isNonterminal name) {t : Tree}
        (ht : t ∈ (g.forest tokens).readings name) :
        (t.mapRules g'.renumber).mapRules g.renumber = t :=
      ((mem_readings_iff hg.wellFormed hname).1 ht).1.1.mapRules_renumber_renumber hg
    refine map_perm_of_inverse (g := (·.mapRules g.renumber))
      (readings_nodup hg.wellFormed name) (readings_nodup hg'.wellFormed name)
      (fun t ht ↦ ?_) fun t' ht' ↦ ?_
    · exact ⟨mapRules_mem_readings hg hg' hgg' hnonterminal hnonterminal' ht,
        hback hg hnonterminal ht⟩
    · exact ⟨mapRules_mem_readings hg' hg hg'g hnonterminal' hnonterminal ht',
        hback hg' hnonterminal' ht'⟩
  · rw [readings_eq_nil hnonterminal, readings_eq_nil fun h ↦ hnonterminal (hname.2 h)]
    exact .nil

end Forest

include hgg' hg'g

theorem Chart.steps_upTo_eq (w : Nat) : (upTo g tokens w).steps = (upTo g' tokens w).steps := by
  have hc := Forest.grown g tokens
  have hc' := Forest.grown g' tokens
  rw [steps_upTo, steps_upTo]
  refine congrArg List.sum (List.map_congr_left fun s hs ↦ ?_)
  obtain ⟨width, hwidth, hs⟩ := List.mem_flatMap.1 hs
  rw [List.mem_range'_1] at hwidth
  rw [mem_ofSentenceWidth] at hs
  have hin : s.InSentence tokens.length := ⟨by omega, by omega⟩
  have hs : s.InSentence tokens.length ∧ s.width ≤ tokens.length := ⟨hin, hin.width_le⟩
  have hcharge : ∀ r ∈ g.rules, (g.forest tokens).chart.charge s r =
      (g'.forest tokens).chart.charge s (g'.renumber r) := by
    intro r hr
    refine hc.charge_eq hg.wellFormed hg'.wellFormed hc' (fun k ↦ ?_) hr
      (renumber_mem (hgg'.rules r hr)) (toProduction_renumber g' r).symm hs
    rw [← Forest.isSome_node?, ← Forest.isSome_node?]
    exact ⟨Forest.isSome_node?_of_within hg.wellFormed hg'.wellFormed hgg',
      Forest.isSome_node?_of_within hg'.wellFormed hg.wellFormed hg'g⟩
  have hperm := (hg.map_renumber_perm hg' hgg' hg'g).map ((g'.forest tokens).chart.charge s)
  calc ((g.forest tokens).chart.cell s).steps
      = (g.rules.map ((g.forest tokens).chart.charge s)).sum := hc.steps_cell hg.wellFormed hs
    _ = ((g.rules.map g'.renumber).map ((g'.forest tokens).chart.charge s)).sum := by
        rw [List.map_congr_left hcharge, List.map_map]
        rfl
    _ = (g'.rules.map ((g'.forest tokens).chart.charge s)).sum := hperm.sum_eq
    _ = ((g'.forest tokens).chart.cell s).steps := (hc'.steps_cell hg'.wellFormed hs).symm

end Variant

theorem Forest.sameFindings (hg : g.Built) (hg' : g'.Built) (hgg' : g.Within g')
    (hg'g : g'.Within g) (hname : ∀ name, g.isNonterminal name ↔ g'.isNonterminal name) :
    (g.forest tokens).SameFindings (g'.forest tokens) := by
  have hreadings (name : String) : (((g.forest tokens).readings name).map
      (·.mapRules g'.renumber)).Perm ((g'.forest tokens).readings name) :=
    readings_perm hg hg' hgg' hg'g (hname name)
  constructor
  · exact nodes_perm hg hg' hgg' hg'g
  · intro k n n' hn hn'
    have hperm := (applications_perm hg hg' hgg' hg'g hn hn').map (·.unnumbered)
    simpa only [List.map_map, Function.comp_def,
      Application.unnumbered_mapRule (toProduction_renumber g')] using hperm
  · exact Chart.steps_upTo_eq hg hg' hgg' hg'g tokens.length
  · intro name
    rw [readingCount_eq_saturate (shareable_forest hg.wellFormed tokens),
      readingCount_eq_saturate (shareable_forest hg'.wellFormed tokens),
      ← (hreadings name).length_eq, List.length_map]
  · intro name
    have hperm := (hreadings name).map (·.unnumbered)
    simpa only [List.map_map, Function.comp_def,
      Tree.unnumbered_mapRules (toProduction_renumber g')] using hperm

/-- Whether a draft can be built does not depend on the order of its rules, and neither does what an
enumeration finds, what it is charged for and where it is cut short. -/
theorem enumerate_reordered (d d' : Draft) (hstart : d'.start = d.start)
    (hwords : d'.words = d.words) (hrules : d'.rules.Perm d.rules) :
    ((∃ g, d.build = .ok g) ↔ ∃ g', d'.build = .ok g') ∧
      ∀ g g', d.build = .ok g → d'.build = .ok g' → ∀ start, g.isNonterminal start →
        ∀ tokens b,
          (∃ steps width,
            enumerate g start tokens b = .error (.overBudget steps width) ∧
            enumerate g' start tokens b = .error (.overBudget steps width)) ∨
          ∃ f f', enumerate g start tokens b = .ok f ∧ enumerate g' start tokens b = .ok f' ∧
            f.SameFindings f' := by
  have hcategory (c : String) : d'.isCategory c = d.isCategory c := by
    rw [Draft.isCategory, hwords]
    rfl
  refine ⟨?_, fun g g' hd hd' start hs tokens b ↦ ?_⟩
  · simp only [Draft.exists_build_iff, hcategory, hrules.mem_iff, hrules.nodup_iff]
  · have hgg' := within_of_build hd hd' hwords.symm hrules.symm.subset
    have hg'g := within_of_build hd' hd hwords hrules.subset
    have hname (name : String) : g.isNonterminal name ↔ g'.isNonterminal name :=
      ⟨isNonterminal_mono hd hd' hstart.symm hwords.symm hrules.symm.subset,
        isNonterminal_mono hd' hd hstart hwords hrules.subset⟩
    have hg : g.Built := ⟨d, hd⟩
    have hg' : g'.Built := ⟨d', hd'⟩
    have hcost : (fun w ↦ (Chart.upTo g tokens w).steps) =
        fun w ↦ (Chart.upTo g' tokens w).steps :=
      funext (Chart.steps_upTo_eq hg hg' hgg' hg'g)
    rw [enumerate_eq hs, enumerate_eq ((hname start).1 hs), hcost]
    cases b.overrun? (fun w ↦ (Chart.upTo g' tokens w).steps) tokens.length with
    | some limit => exact .inl ⟨limit.1, limit.2, rfl, rfl⟩
    | none => exact .inr ⟨_, _, rfl, rfl, Forest.sameFindings hg hg' hgg' hg'g hname⟩

theorem enumerate_reordered_looping :
    let reversed : Draft := { loopingDraft with rules := loopingDraft.rules.reverse }
    reversed.rules.Perm loopingDraft.rules ∧ looping.isNonterminal "S" ∧
      ∃ g', reversed.build = .ok g' ∧
        ∃ f f', enumerate looping "S" ["x", "x"] .unlimited = .ok f ∧
          enumerate g' "S" ["x", "x"] .unlimited = .ok f' ∧ f.SameFindings f' := by
  intro reversed
  have hperm : reversed.rules.Perm loopingDraft.rules := List.reverse_perm _
  obtain ⟨hbuild, hsame⟩ := enumerate_reordered loopingDraft reversed rfl rfl hperm
  obtain ⟨g', hg'⟩ := hbuild.1 ⟨looping, build_loopingDraft⟩
  refine ⟨hperm, by decide, g', hg', Or.resolve_left
    (hsame looping g' build_loopingDraft hg' "S" (by decide) ["x", "x"] .unlimited) ?_⟩
  intro herror
  obtain ⟨steps, width, herror, -⟩ := herror
  rw [enumerate_unlimited (by decide)] at herror
  cases herror

end Readings
