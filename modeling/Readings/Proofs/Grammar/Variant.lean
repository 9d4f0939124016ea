import Readings.Grammar.Derivation
import Readings.Proofs.Grammar.Built

/-!
Grammars that share rules. A rule of one grammar is found in another by its production; the two may
give it different numbers.
-/

namespace Readings.Grammar

variable {g g' : Grammar}

/-- Every production and every word of the first grammar is one of the second. -/
structure Within (g g' : Grammar) : Prop where
  rules : ∀ r ∈ g.rules, ∃ r' ∈ g'.rules, r'.toProduction = r.toProduction
  entries : ∀ e ∈ g.lexicon.entries, e ∈ g'.lexicon.entries

theorem Within.derives (h : g.Within g') {cs ts : List String} (hd : g.Derives cs ts) :
    g'.Derives cs ts := by
  induction hd with
  | nil => exact .nil
  | token entry _ ih => exact .token (h.entries _ entry) ih
  | @rule rule rest first ts mem _ _ ihead itail =>
    obtain ⟨rule', mem', hsame⟩ := h.rules rule mem
    rw [← hsame] at ihead ⊢
    exact .rule mem' ihead itail

/-- The rule as the grammar numbers it. -/
def renumber (g : Grammar) (r : Rule) : Rule :=
  (g.rules.find? (·.toProduction == r.toProduction)).getD r

@[simp] theorem toProduction_renumber (g : Grammar) (r : Rule) :
    (g.renumber r).toProduction = r.toProduction := by
  rw [renumber]
  cases hr : g.rules.find? (·.toProduction == r.toProduction) with
  | none => rfl
  | some r' => simpa using List.find?_some hr

theorem renumber_mem {r : Rule} (h : ∃ r' ∈ g.rules, r'.toProduction = r.toProduction) :
    g.renumber r ∈ g.rules := by
  rw [renumber]
  cases hr : g.rules.find? (·.toProduction == r.toProduction) with
  | none =>
    obtain ⟨r', mem, hsame⟩ := h
    simpa [hsame] using List.find?_eq_none.1 hr r' mem
  | some r' => exact List.mem_of_find?_eq_some hr

namespace Built

theorem rule_ext (hg : g.Built) {r r' : Rule} (hr : r ∈ g.rules) (hr' : r' ∈ g.rules)
    (h : r.toProduction = r'.toProduction) : r = r' := by
  obtain ⟨d, hd⟩ := hg
  obtain ⟨-, -, hnodup⟩ := Draft.exists_build_iff.1 ⟨g, hd⟩
  refine List.inj_on_of_nodup_map ?_ hr hr' h
  rw [(Draft.yields_of_build hd).rules.rules_eq, map_toProduction_numbered]
  exact hnodup

theorem renumber_eq (hg : g.Built) {r r' : Rule} (hr : r ∈ g.rules)
    (h : r'.toProduction = r.toProduction) : g.renumber r' = r :=
  hg.rule_ext (renumber_mem ⟨r, hr, h.symm⟩) hr ((toProduction_renumber g r').trans h)

/-- Two grammars with the same productions have the same rules, up to order and numbers. -/
theorem map_renumber_perm (hg : g.Built) (hg' : g'.Built) (h : g.Within g') (h' : g'.Within g) :
    (g.rules.map g'.renumber).Perm g'.rules := by
  refine map_perm_of_inverse (g := g.renumber) hg.wellFormed.rules_nodup
    hg'.wellFormed.rules_nodup (fun r hr ↦ ?_) fun r' hr' ↦ ?_
  · exact ⟨renumber_mem (h.rules r hr), hg.renumber_eq hr (toProduction_renumber g' r)⟩
  · exact ⟨renumber_mem (h'.rules r' hr'), hg'.renumber_eq hr' (toProduction_renumber g r')⟩

end Built

section Draft

variable {d d' : Draft}

theorem within_of_build (hd : d.build = .ok g) (hd' : d'.build = .ok g')
    (hwords : d.words = d'.words) (hrules : d.rules ⊆ d'.rules) : g.Within g' := by
  have hyields := Draft.yields_of_build hd
  have hyields' := Draft.yields_of_build hd'
  constructor
  · intro r hr
    rw [hyields.rules.rules_eq] at hr
    obtain ⟨i, hi⟩ := List.mem_iff_getElem?.1 (hrules (toProduction_mem_of_mem_numbered hr))
    refine ⟨⟨r.toProduction, i⟩, ?_, rfl⟩
    rw [hyields'.rules.rules_eq]
    exact mem_numbered_iff.2 hi
  · intro e he
    rw [hyields'.mem_entries_iff, ← hwords]
    exact hyields.mem_entries_iff.1 he

theorem isNonterminal_iff_of_build (hd : d.build = .ok g) {c : String} :
    g.isNonterminal c ↔ c ∈ d.mentions ∧ ¬ d.isCategory c := by
  obtain ⟨hkinds, -⟩ := Draft.exists_build_iff.1 ⟨g, hd⟩
  rw [isNonterminal, (Draft.yields_of_build hd).any_symbol?, Bool.and_eq_true, decide_eq_true_eq,
    beq_iff_eq, ← Draft.kindOf_eq_terminal_iff hkinds]
  cases d.kindOf c <;> simp

theorem isNonterminal_mono (hd : d.build = .ok g) (hd' : d'.build = .ok g')
    (hstart : d.start = d'.start) (hwords : d.words = d'.words) (hrules : d.rules ⊆ d'.rules)
    {c : String} (hc : g.isNonterminal c) : g'.isNonterminal c := by
  obtain ⟨hname, hcategory⟩ := (isNonterminal_iff_of_build hd).1 hc
  have hsame : d.isCategory c = d'.isCategory c := by rw [Draft.isCategory, hwords]; rfl
  rw [isNonterminal_iff_of_build hd', ← hsame]
  refine ⟨?_, hcategory⟩
  rw [Draft.mem_mentions_iff] at hname ⊢
  rw [← hstart, ← hsame]
  refine hname.imp_right (Or.imp_left fun h ↦ ?_)
  obtain ⟨p, hp, hc⟩ := h
  exact ⟨p, hrules hp, hc⟩

end Draft

end Readings.Grammar
