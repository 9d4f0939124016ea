import Readings.GrammarFile.Report
import Readings.Proofs.List

/-!
Uses of undefined names are reported one by one, in the order of their places.
-/

namespace Readings.GrammarFile

theorem Line.mem_defines_iff {line : Line} {name : String} :
    name ∈ line.defines ↔ line.Defines name := by
  constructor
  · intro h
    cases line with
    | rule head alternatives =>
      obtain rfl | h := List.mem_cons.1 h
      · exact .head
      · obtain ⟨item, hitem, hword⟩ := List.mem_filterMap.1 h
        obtain ⟨alternative, hmem, hitem⟩ := List.mem_flatten.1 hitem
        cases item with
        | category => cases hword
        | literal =>
          cases hword
          exact .literal hmem hitem
    | words category ws =>
      obtain rfl := List.mem_singleton.1 h
      exact .category
  · intro h
    cases h with
    | head => exact List.mem_cons_self
    | literal mem item =>
      refine List.mem_cons_of_mem _ (List.mem_filterMap.2 ⟨.literal name, ?_, rfl⟩)
      exact List.mem_flatten.2 ⟨_, mem, item⟩
    | category => exact List.mem_singleton_self _

def Item.use? (line alternative : Nat) : Item × Nat → Option Use
  | (.category name, position) => some ⟨line, alternative, position, name⟩
  | (.literal _, _) => none

/-- The uses of names in a definition, from left to right. -/
def Definition.uses (d : Definition) : List Use :=
  match d.line with
  | .rule _ alternatives =>
    alternatives.zipIdx.flatMap fun (items, i) ↦ items.zipIdx.filterMap (Item.use? d.number i)
  | .words _ _ => []

theorem Item.use?_eq_some_iff {line alternative : Nat} {p : Item × Nat} {u : Use} :
    use? line alternative p = some u ↔ u.line = line ∧ u.alternative = alternative ∧
      u.position = p.2 ∧ p.1 = .category u.name := by
  obtain ⟨item, position⟩ := p
  obtain ⟨line', alternative', position', name⟩ := u
  cases item <;> simp [use?, eq_comm]

theorem mem_filterMap_use?_iff {line alternative : Nat} {items : List Item} {u : Use} :
    u ∈ items.zipIdx.filterMap (Item.use? line alternative) ↔ u.line = line ∧
      u.alternative = alternative ∧ items[u.position]? = some (.category u.name) := by
  simp only [List.mem_filterMap, Item.use?_eq_some_iff, Prod.exists,
    List.mk_mem_zipIdx_iff_getElem?]
  constructor
  · intro h
    obtain ⟨item, position, hitem, hline, halternative, rfl, rfl⟩ := h
    exact ⟨hline, halternative, hitem⟩
  · intro h
    obtain ⟨hline, halternative, hitem⟩ := h
    exact ⟨_, _, hitem, hline, halternative, rfl, rfl⟩

namespace Definition

variable {d : Definition}

theorem mem_uses_iff {u : Use} : u ∈ d.uses ↔ u.In d := by
  obtain ⟨line, number⟩ := d
  cases line with
  | words category ws => exact iff_of_false nofun fun ⟨_, _, _, h, _⟩ ↦ by cases h
  | rule head alternatives =>
    simp only [uses, List.mem_flatMap, mem_filterMap_use?_iff, Prod.exists,
      List.mk_mem_zipIdx_iff_getElem?]
    constructor
    · intro h
      obtain ⟨items, i, hitems, rfl, rfl, hitem⟩ := h
      exact ⟨head, alternatives, items, rfl, hitems, hitem⟩
    · intro h
      obtain ⟨_, _, items, he, hitems, hitem⟩ := h
      cases he
      exact ⟨items, _, hitems, rfl, rfl, hitem⟩

theorem line_eq_of_mem_uses {u : Use} (h : u ∈ d.uses) : u.line = d.number := by
  obtain ⟨_, _, _, rfl, -⟩ := mem_uses_iff.1 h
  rfl

theorem uses_pairwise (d : Definition) : d.uses.Pairwise Use.Before := by
  obtain ⟨line, number⟩ := d
  cases line with
  | words category ws => exact .nil
  | rule head alternatives =>
    simp only [uses, List.pairwise_flatMap]
    -- within an alternative the position decides, between two of them their number does
    constructor
    · intro p _
      rw [List.pairwise_filterMap]
      refine (zipIdx_pairwise p.1 0).imp fun {q q'} hlt u hu u' hu' ↦ ?_
      obtain ⟨hline, halternative, hposition, -⟩ := Item.use?_eq_some_iff.1 hu
      obtain ⟨hline', halternative', hposition', -⟩ := Item.use?_eq_some_iff.1 hu'
      refine .inr ⟨hline.trans hline'.symm, .inr ⟨halternative.trans halternative'.symm, ?_⟩⟩
      rw [hposition, hposition']
      exact hlt
    · refine (zipIdx_pairwise alternatives 0).imp fun {p p'} hlt u hu u' hu' ↦ ?_
      obtain ⟨hline, halternative, -⟩ := mem_filterMap_use?_iff.1 hu
      obtain ⟨hline', halternative', -⟩ := mem_filterMap_use?_iff.1 hu'
      refine .inr ⟨hline.trans hline'.symm, .inl ?_⟩
      rw [halternative, halternative']
      exact hlt

theorem map_name_uses (d : Definition) : d.uses.map (·.name) = d.line.uses := by
  obtain ⟨line, number⟩ := d
  cases line with
  | words category ws => rfl
  | rule head alternatives =>
    simp only [uses, Line.uses, Line.items, List.map_flatMap, List.map_filterMap,
      List.filterMap_flatten]
    rw [← List.flatMap_def, ← flatMap_zipIdx_fst alternatives 0]
    refine List.flatMap_congr fun p _ ↦ ?_
    rw [← filterMap_zipIdx_fst p.1 0]
    refine List.filterMap_congr fun q _ ↦ ?_
    obtain ⟨item, position⟩ := q
    cases item <;> rfl

end Definition

def undefinedUses (ds : List Definition) : List Use :=
  ds.flatMap fun d ↦ d.uses.filter (·.name ∉ ds.flatMap (·.line.defines))

theorem undefinedNames_eq (path : String) (ds : List Definition) :
    undefinedNames path ds = (undefinedUses ds).map (·.error path) := by
  rw [undefinedNames, undefinedUses, List.map_flatMap]
  refine List.flatMap_congr fun d _ ↦ ?_
  rw [← Definition.map_name_uses, List.filter_map, List.map_map]
  refine List.map_congr_left fun u hu ↦ ?_
  rw [Use.error, Definition.line_eq_of_mem_uses (List.mem_of_mem_filter hu)]
  rfl

theorem mem_undefinedUses_iff {ds : List Definition} {u : Use} :
    u ∈ undefinedUses ds ↔ u.Undefined ds := by
  simp only [undefinedUses, List.mem_flatMap, List.mem_filter, Definition.mem_uses_iff,
    decide_eq_true_eq, Line.mem_defines_iff, Use.Undefined, not_exists, not_and]
  constructor
  · intro h
    obtain ⟨d, hd, hu, hname⟩ := h
    exact ⟨⟨d, hd, hu⟩, hname⟩
  · intro h
    obtain ⟨⟨d, hd, hu⟩, hname⟩ := h
    exact ⟨d, hd, hu, hname⟩

theorem undefinedUses_pairwise {ds : List Definition} (h : ds.Pairwise (·.number < ·.number)) :
    (undefinedUses ds).Pairwise Use.Before := by
  rw [undefinedUses, List.pairwise_flatMap]
  refine ⟨fun d _ ↦ d.uses_pairwise.filter _, h.imp fun {d d'} hlt u hu u' hu' ↦ .inl ?_⟩
  rw [Definition.line_eq_of_mem_uses (List.mem_of_mem_filter hu),
    Definition.line_eq_of_mem_uses (List.mem_of_mem_filter hu')]
  exact hlt

end Readings.GrammarFile
