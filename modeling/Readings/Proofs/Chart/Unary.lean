import Readings.Chart.Unary
import Readings.Proofs.Chart.Node

/-!
The closure of a cell under unary rules: it records exactly the rules whose right-hand side is
present in the end, each once and none before its right-hand side.
-/

namespace Readings

namespace Unary

open Node

/-- The right-hand side of the rule is a single category, and it is present. -/
def Fires (nodes : List Node) (rule : Rule) : Prop := ∃ child, rule.rhs = [child] ∧ has nodes child

theorem Fires.isUnary {nodes : List Node} {rule : Rule} (h : Fires nodes rule) : rule.isUnary := by
  obtain ⟨child, hrhs, -⟩ := h
  rw [Rule.isUnary, Rule.arity, hrhs]
  rfl

/-- The rules are recorded one after another, each while its right-hand side is present and while it
is not recorded yet. -/
inductive Records (s : Span) : List Node → List Rule → List Node → Prop
  | nil (nodes : List Node) : Records s nodes [] nodes
  | cons {nodes nodes' : List Node} {rule : Rule} {fired : List Rule} (fires : Fires nodes rule)
      (new : ¬ isRecorded s nodes rule)
      (tail : Records s (record rule.lhs [application s rule] nodes) fired nodes') :
      Records s nodes (rule :: fired) nodes'

variable {s : Span} {nodes nodes' nodes'' : List Node} {fired fired' rules : List Rule}

theorem isDue_iff {rule : Rule} :
    isDue s nodes rule ↔ Fires nodes rule ∧ ¬ isRecorded s nodes rule := by
  rw [isDue, Fires]
  split
  · rename_i child hrhs
    simp [hrhs]
  · rename_i hrhs
    refine iff_of_false Bool.false_ne_true fun h ↦ ?_
    obtain ⟨⟨child, h, -⟩, -⟩ := h
    exact hrhs child h

theorem not_isRecorded_of_isUnary (h : ∀ c, ∀ a ∈ applicationsOf nodes c, ¬ a.rule.isUnary)
    {rule : Rule} (hunary : rule.isUnary) : ¬ isRecorded s nodes rule := by
  rw [isRecorded, List.contains_iff_mem]
  exact fun ha ↦ h _ _ ha hunary

namespace Records

theorem append (h : Records s nodes fired nodes') (h' : Records s nodes' fired' nodes'') :
    Records s nodes (fired ++ fired') nodes'' := by
  induction h with
  | nil => exact h'
  | cons fires new _ ih => exact .cons fires new (ih h')

theorem has_iff (h : Records s nodes fired nodes') (c : String) :
    has nodes' c ↔ has nodes c ∨ ∃ rule ∈ fired, rule.lhs = c := by
  induction h with
  | nil => simp
  | cons _ _ _ ih =>
    rw [ih, has_record]
    simp only [Bool.or_eq_true, beq_iff_eq, List.mem_cons, exists_eq_or_imp]
    rw [or_assoc, or_left_comm]

theorem applicationsOf_eq (h : Records s nodes fired nodes') (c : String) :
    applicationsOf nodes' c =
      applicationsOf nodes c ++ (fired.filter (·.lhs = c)).map (application s) := by
  induction h with
  | nil => simp
  | @cons nodes nodes' rule fired _ _ _ ih =>
    rw [ih, applicationsOf_record, List.filter_cons]
    by_cases hc : rule.lhs = c <;> simp [hc]

theorem nodup (h : Records s nodes fired nodes') (hn : (nodes.map (·.category)).Nodup) :
    (nodes'.map (·.category)).Nodup := by
  induction h with
  | nil => exact hn
  | cons _ _ _ ih => exact ih (nodup_record hn _ _)

theorem isRecorded_iff (h : Records s nodes fired nodes') {rule : Rule} :
    isRecorded s nodes' rule ↔ isRecorded s nodes rule ∨ rule ∈ fired := by
  induction h with
  | nil => simp
  | cons _ _ _ ih => rw [ih, isRecorded_record, List.mem_cons, or_right_comm, or_comm]

theorem not_isRecorded_of_mem (h : Records s nodes fired nodes') {rule : Rule}
    (hr : rule ∈ fired) : ¬ isRecorded s nodes rule := by
  induction h with
  | nil => cases hr
  | cons _ new _ ih =>
    obtain rfl | hr := List.mem_cons.1 hr
    · exact new
    · exact fun hrec ↦ ih hr ((isRecorded_record _ _ _).2 (.inr hrec))

/-- No rule is recorded twice. -/
theorem fired_nodup (h : Records s nodes fired nodes') : fired.Nodup := by
  induction h with
  | nil => exact .nil
  | cons _ _ tail ih =>
    refine List.nodup_cons.2 ⟨fun hr ↦ ?_, ih⟩
    exact tail.not_isRecorded_of_mem hr ((isRecorded_record _ _ _).2 (.inl rfl))

theorem fires_mono (h : Records s nodes fired nodes') {rule : Rule} (hr : Fires nodes rule) :
    Fires nodes' rule := by
  obtain ⟨child, hrhs, hc⟩ := hr
  exact ⟨child, hrhs, (h.has_iff child).2 (.inl hc)⟩

theorem fires_of_mem (h : Records s nodes fired nodes') {rule : Rule} (hr : rule ∈ fired) :
    Fires nodes' rule := by
  induction h with
  | nil => cases hr
  | @cons nodes nodes' first fired fires new tail ih =>
    rcases List.mem_cons.1 hr with rfl | hr
    · have hstep : Records s nodes [rule] (record rule.lhs [application s rule] nodes) :=
        .cons fires new (.nil _)
      exact (hstep.append tail).fires_mono fires
    · exact ih hr

/-- Whatever holds of the categories that were there, and of the head of a rule if of its
right-hand side, holds of the categories that are there in the end. -/
theorem has_induction (h : Records s nodes fired nodes') {P : String → Prop}
    (start : ∀ c, has nodes c → P c)
    (step : ∀ rule ∈ fired, ∀ child, rule.rhs = [child] → P child → P rule.lhs) :
    ∀ c, has nodes' c → P c := by
  induction h with
  | nil => exact start
  | @cons nodes nodes' rule fired fires _ _ ih =>
    refine ih (fun c hc ↦ ?_) fun r hr ↦ step r (List.mem_cons_of_mem _ hr)
    rw [has_record, Bool.or_eq_true, beq_iff_eq] at hc
    rcases hc with rfl | hc
    · obtain ⟨child, hrhs, hchild⟩ := fires
      exact step rule List.mem_cons_self child hrhs (start child hchild)
    · exact start c hc

end Records

theorem pass_eq_of_quiet (h : (pass s rules nodes).2 = 0) :
    pass s rules nodes = (nodes, 0) ∧ ∀ rule ∈ rules, ¬ isDue s nodes rule := by
  induction rules with
  | nil => exact ⟨rfl, nofun⟩
  | cons rule rest ih =>
    rw [pass] at h ⊢
    split at h
    · cases h
    next hdue =>
      rw [if_neg hdue]
      exact (ih h).imp_right fun hrest ↦ List.forall_mem_cons.2 ⟨hdue, hrest⟩

theorem pass_spec (s : Span) (rules : List Rule) (nodes : List Node) :
    ∃ fired, Records s nodes fired (pass s rules nodes).1 ∧
      (pass s rules nodes).2 = fired.length ∧ ∀ rule ∈ fired, rule ∈ rules := by
  induction rules generalizing nodes with
  | nil => exact ⟨[], .nil nodes, rfl, nofun⟩
  | cons rule rest ih =>
    rw [pass]
    split
    next hdue =>
      obtain ⟨fires, new⟩ := isDue_iff.1 hdue
      obtain ⟨fired, hrec, hsteps, hfired⟩ := ih (record rule.lhs [application s rule] nodes)
      refine ⟨rule :: fired, .cons fires new hrec, congrArg (· + 1) hsteps, ?_⟩
      rw [List.forall_mem_cons]
      exact ⟨List.mem_cons_self, fun r hr ↦ List.mem_cons_of_mem _ (hfired r hr)⟩
    next =>
      obtain ⟨fired, hrec, hsteps, hfired⟩ := ih nodes
      exact ⟨fired, hrec, hsteps, fun r hr ↦ List.mem_cons_of_mem _ (hfired r hr)⟩

/-- The closure records rules until none is due. -/
theorem closure_records (s : Span) (rules : List Rule) (nodes : List Node) :
    ∃ fired, Records s nodes fired (closure s rules nodes).1 ∧
      (closure s rules nodes).2 = fired.length ∧ (∀ rule ∈ fired, rule ∈ rules) ∧
      ∀ rule ∈ rules, ¬ isDue s (closure s rules nodes).1 rule := by
  fun_induction closure s rules nodes with
  | case1 nodes after hquiet =>
    obtain ⟨hpass, hdue⟩ := pass_eq_of_quiet hquiet
    have hafter : after.1 = nodes := congrArg Prod.fst hpass
    rw [hafter]
    exact ⟨[], .nil nodes, hquiet, nofun, hdue⟩
  | case2 nodes after _ closed ih =>
    obtain ⟨fired, hrec, hsteps, hfired⟩ := pass_spec s rules nodes
    obtain ⟨fired', hrec', hsteps', hfired', hdue⟩ := ih
    refine ⟨fired ++ fired', hrec.append hrec', ?_, ?_, hdue⟩
    · rw [List.length_append, ← hsteps, ← hsteps']
    · exact List.forall_mem_append.2 ⟨hfired, hfired'⟩

/-- If nothing but long rules was recorded before, the closure records exactly the unary rules whose
right-hand side is present in the end. -/
theorem closure_spec (s : Span) (rules : List Rule) {nodes : List Node}
    (h : ∀ c, ∀ a ∈ applicationsOf nodes c, ¬ a.rule.isUnary) :
    ∃ fired, Records s nodes fired (closure s (rules.filter (·.isUnary)) nodes).1 ∧
      (closure s (rules.filter (·.isUnary)) nodes).2 = fired.length ∧
      ∀ rule, rule ∈ fired ↔
        rule ∈ rules ∧ Fires (closure s (rules.filter (·.isUnary)) nodes).1 rule := by
  obtain ⟨fired, hrec, hsteps, hfired, hdue⟩ := closure_records s (rules.filter (·.isUnary)) nodes
  refine ⟨fired, hrec, hsteps, fun rule ↦ ⟨fun hr ↦ ?_, fun hr ↦ ?_⟩⟩
  · exact ⟨List.mem_of_mem_filter (hfired rule hr), hrec.fires_of_mem hr⟩
  · obtain ⟨hr, hfires⟩ := hr
    by_contra hnot
    have hnew : ¬ isRecorded s (closure s (rules.filter (·.isUnary)) nodes).1 rule := by
      rw [hrec.isRecorded_iff, or_iff_left hnot]
      exact not_isRecorded_of_isUnary h hfires.isUnary
    exact hdue rule (List.mem_filter.2 ⟨hr, hfires.isUnary⟩) (isDue_iff.2 ⟨hfires, hnew⟩)

end Unary

end Readings
