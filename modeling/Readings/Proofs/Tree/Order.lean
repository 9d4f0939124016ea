import Readings.Proofs.Chart.Order
import Readings.Tree

/-!
The order of the trees over one node: by what is applied at the root, and then by the first child in
which two trees differ.
-/

namespace Readings

theorem Application.not_before_of_same {a b : Application} (hid : a.rule.id = b.rule.id)
    (hspans : a.children.map (·.span) = b.children.map (·.span)) : ¬ a.Before b := by
  intro h
  obtain hlt | ⟨-, hlex⟩ := h
  · exact Nat.ne_of_lt hlt hid
  · rw [hspans] at hlex
    exact Std.Asymm.asymm _ _ hlex hlex

/-- Two lists that are the same up to two different elements have only these in that place. -/
theorem eq_of_first_difference {α : Type} {same same' xs xs' ys ys' : List α} {x x' y y' : α}
    (hx : same ++ x :: xs = same' ++ x' :: xs') (hy : same ++ y :: ys = same' ++ y' :: ys')
    (hne : x ≠ y) (hne' : x' ≠ y') : x = x' ∧ y = y' := by
  induction same generalizing same' with
  | nil =>
    cases same' with
    | nil => exact ⟨(List.cons.inj hx).1, (List.cons.inj hy).1⟩
    | cons z same' => exact absurd ((List.cons.inj hx).1.trans (List.cons.inj hy).1.symm) hne
  | cons z same ih =>
    cases same' with
    | nil => exact absurd ((List.cons.inj hx).1.symm.trans (List.cons.inj hy).1) hne'
    | cons z' same' => exact ih (List.cons.inj hx).2 (List.cons.inj hy).2

namespace Tree

variable {t u : Tree}

/-- The first tree applies an earlier rule at its root, or the same rule over spans that come first,
or the same rule over the same spans to children of which the first that differ are so ordered. -/
inductive Before : Tree → Tree → Prop
  | root {rule rule' : Rule} {span span' : Span} {ts us : List Tree}
      (earlier : Application.Before ⟨rule, ts.map constituent⟩ ⟨rule', us.map constituent⟩) :
      Before (.node rule span ts) (.node rule' span' us)
  | child {rule rule' : Rule} {span span' : Span} {same ts us : List Tree} {t u : Tree}
      (id : rule.id = rule'.id)
      (spans : (same ++ t :: ts).map Tree.span = (same ++ u :: us).map Tree.span)
      (earlier : Before t u) :
      Before (.node rule span (same ++ t :: ts)) (.node rule' span' (same ++ u :: us))

theorem map_span_constituent (ts : List Tree) :
    (ts.map constituent).map (·.span) = ts.map span := by
  rw [List.map_map]
  rfl

theorem before_node_iff {rule rule' : Rule} {span span' : Span} {ts us : List Tree} :
    (node rule span ts).Before (node rule' span' us) ↔
      Application.Before ⟨rule, ts.map constituent⟩ ⟨rule', us.map constituent⟩ ∨
        rule.id = rule'.id ∧ ts.map Tree.span = us.map Tree.span ∧ ∃ same t u ts' us',
          ts = same ++ t :: ts' ∧ us = same ++ u :: us' ∧ t.Before u := by
  constructor
  · intro h
    generalize hleft : node rule span ts = left at h
    generalize hright : node rule' span' us = right at h
    cases h with
    | root earlier =>
      cases hleft
      cases hright
      exact .inl earlier
    | child id spans earlier =>
      cases hleft
      cases hright
      exact .inr ⟨id, spans, _, _, _, _, _, rfl, rfl, earlier⟩
  · rintro (earlier | ⟨id, spans, same, t, u, ts, us, rfl, rfl, earlier⟩)
    · exact .root earlier
    · exact .child id spans earlier

theorem not_before_self (t : Tree) : ¬ t.Before t := by
  induction t with
  | leaf => rintro ⟨⟩
  | node rule span children ih =>
    rw [before_node_iff]
    rintro (earlier | ⟨-, -, same, t, u, ts, us, rfl, he, earlier⟩)
    · exact Application.not_before_of_same rfl rfl earlier
    · obtain ⟨rfl, -⟩ := List.cons.inj (List.append_cancel_left he)
      exact ih t (by simp) earlier

theorem Before.ne (h : t.Before u) : t ≠ u := by
  rintro rfl
  exact not_before_self t h

/-- Two trees are not ordered both ways, as they have only one first difference. -/
theorem Before.asymm (h : t.Before u) : ¬ u.Before t := by
  induction h with
  | root earlier =>
    rw [before_node_iff]
    rintro (earlier' | ⟨hid, hspans, -⟩)
    · exact Application.before_asymm earlier earlier'
    · refine Application.not_before_of_same hid.symm ?_ earlier
      rw [map_span_constituent, map_span_constituent, hspans]
  | @child rule rule' span span' same ts us t u id spans earlier ih =>
    rw [before_node_iff]
    rintro (earlier' | ⟨-, -, same', u', t', us', ts', hu, ht, earlier'⟩)
    · refine Application.not_before_of_same id.symm ?_ earlier'
      rw [map_span_constituent, map_span_constituent, spans]
    · obtain ⟨rfl, rfl⟩ := eq_of_first_difference hu ht earlier.ne.symm earlier'.ne
      exact ih earlier'

end Tree

end Readings
