import Mathlib.Data.List.Nodup
import Readings.Constituent

/-!
The nodes of a cell as a table from categories to applications.
-/

namespace Readings

namespace Node

theorem isSome_get? (nodes : List Node) (c : String) : (get? nodes c).isSome = has nodes c := by
  rw [get?, has, Bool.eq_iff_iff, List.find?_isSome, List.any_eq_true]

theorem get?_eq_some {nodes : List Node} {c : String} {n : Node} (h : get? nodes c = some n) :
    n ∈ nodes ∧ n.category = c ∧ n.applications = applicationsOf nodes c := by
  refine ⟨List.mem_of_find?_eq_some h, by simpa using List.find?_some h, ?_⟩
  rw [applicationsOf, h]
  rfl

theorem exists_of_mem_applicationsOf {nodes : List Node} {c : String} {a : Application}
    (ha : a ∈ applicationsOf nodes c) : ∃ n ∈ nodes, a ∈ n.applications := by
  rw [applicationsOf] at ha
  cases hn : get? nodes c with
  | none =>
    rw [hn] at ha
    cases ha
  | some n =>
    rw [hn] at ha
    exact ⟨n, (get?_eq_some hn).1, ha⟩

theorem map_category_record (nodes : List Node) (c : String) (as : List Application) :
    (record c as nodes).map (·.category) =
      if has nodes c then nodes.map (·.category) else nodes.map (·.category) ++ [c] := by
  induction nodes with
  | nil => rfl
  | cons n rest ih =>
    rw [record]
    by_cases hn : n.category = c
    · simp [has, hn]
    · have hhas : has (n :: rest) c = has rest c := by simp [has, hn]
      rw [if_neg hn, List.map_cons, ih, hhas]
      split <;> rfl

theorem map_category_prefix_record (nodes : List Node) (c : String) (as : List Application) :
    nodes.map (·.category) <+: (record c as nodes).map (·.category) := by
  rw [map_category_record]
  split
  · exact List.prefix_refl _
  · exact List.prefix_append _ _

theorem nodup_record {nodes : List Node} (h : (nodes.map (·.category)).Nodup) (c : String)
    (as : List Application) : ((record c as nodes).map (·.category)).Nodup := by
  induction nodes with
  | nil => exact List.nodup_singleton _
  | cons n rest ih =>
    rw [List.map_cons, List.nodup_cons] at h
    by_cases hn : n.category = c
    · rw [record, if_pos hn, List.map_cons, List.nodup_cons, ← hn]
      exact h
    · rw [record, if_neg hn, List.map_cons, List.nodup_cons]
      refine ⟨fun hmem ↦ ?_, ih h.2⟩
      obtain ⟨m, hm, hmn⟩ := List.mem_map.1 hmem
      have hhas : has (record c as rest) n.category := has_iff.2 ⟨m, hm, hmn⟩
      rw [has_record, Bool.or_eq_true, beq_iff_eq] at hhas
      rcases hhas with hc | hhas
      · exact hn hc.symm
      · obtain ⟨m, hm, hmn⟩ := has_iff.1 hhas
        exact h.1 (List.mem_map.2 ⟨m, hm, hmn⟩)

theorem get?_eq_some_iff {nodes : List Node} (h : (nodes.map (·.category)).Nodup) {c : String}
    {n : Node} : get? nodes c = some n ↔ n ∈ nodes ∧ n.category = c := by
  constructor
  · intro hn
    exact ⟨(get?_eq_some hn).1, (get?_eq_some hn).2.1⟩
  · intro h
    obtain ⟨hn, hc⟩ := h
    cases hm : get? nodes c with
    | none =>
      have hhas : has nodes c := has_iff.2 ⟨n, hn, hc⟩
      rw [← isSome_get?, hm] at hhas
      cases hhas
    | some m =>
      obtain ⟨hmem, hmc, -⟩ := get?_eq_some hm
      rw [List.inj_on_of_nodup_map h hmem hn (hmc.trans hc.symm)]

theorem has_map_sort (nodes : List Node) (c : String) : has (nodes.map sort) c = has nodes c := by
  simp [has, sort, List.any_map, Function.comp_def]

theorem get?_map_sort (nodes : List Node) (c : String) :
    get? (nodes.map sort) c = (get? nodes c).map sort := by
  rw [get?, List.find?_map]
  rfl

end Node

end Readings
