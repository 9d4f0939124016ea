import Readings.Grammar.Draft
import Readings.Proofs.List

/-!
Interning. A table of symbols only grows, so that a name keeps the symbol that it is given when it
is first met, and symbols of a table have the same number only if they have the same name.
-/

namespace Readings

variable {kind : String → Kind} {names more : List String} {c c' : String}

/-- The number of a name, when names are numbered in the order in which they are first met. -/
def place (names : List String) (c : String) : Nat := names.eraseDups.idxOf c

def symbolOf (kind : String → Kind) (names : List String) (c : String) : Symbol :=
  ⟨place names c, c, kind c⟩

/-- A name keeps its number, whatever else is met. -/
theorem place_append (hc : c ∈ names) (more : List String) :
    place (names ++ more) c = place names c := by
  rw [place, List.eraseDups_append, List.idxOf_append_of_mem (List.mem_eraseDups.2 hc)]
  rfl

theorem symbolOf_append (hc : c ∈ names) (more : List String) :
    symbolOf kind (names ++ more) c = symbolOf kind names c := by
  rw [symbolOf, symbolOf, place_append hc]

theorem place_inj (hc : c ∈ names) : place names c = place names c' ↔ c = c' :=
  List.idxOf_inj (List.mem_eraseDups.2 hc)

theorem eraseDups_concat_of_mem (hc : c ∈ names) : (names ++ [c]).eraseDups = names.eraseDups := by
  rw [eraseDups_concat, if_pos hc]

theorem eraseDups_concat_of_not_mem (hc : c ∉ names) :
    (names ++ [c]).eraseDups = names.eraseDups ++ [c] := by
  rw [eraseDups_concat, if_neg hc]

theorem place_concat (hc : c ∉ names) : place (names ++ [c]) c = names.eraseDups.length := by
  rw [place, eraseDups_concat_of_not_mem hc,
    List.idxOf_append_of_notMem (mt List.mem_eraseDups.1 hc)]
  simp

theorem getElem?_place (hc : c ∈ names) : names.eraseDups[place names c]? = some c :=
  List.getElem?_idxOf (List.mem_eraseDups.2 hc)

namespace SymbolTable

variable {t : SymbolTable}

/-- The table that comes of interning the names in this order. -/
structure Interns (kind : String → Kind) (t : SymbolTable) (names : List String) : Prop where
  symbols : t.symbols = names.eraseDups.map (symbolOf kind names)
  getElem?_names : ∀ c, t.names[c]? = if c ∈ names then some (symbolOf kind names c) else none

theorem interns_nil : Interns kind {} [] where
  symbols := rfl
  getElem?_names c := by simp

theorem Interns.intern (h : t.Interns kind names) (c : String) :
    (t.intern c (kind c)).1.Interns kind (names ++ [c]) ∧
      (t.intern c (kind c)).2 = symbolOf kind (names ++ [c]) c := by
  rw [SymbolTable.intern, h.getElem?_names]
  by_cases hc : c ∈ names
  · -- a name that is met again changes nothing
    have hsame : symbolOf kind (names ++ [c]) = symbolOf kind names := by
      funext c'
      rw [symbolOf, symbolOf, place, place, eraseDups_concat_of_mem hc]
    rw [if_pos hc, hsame]
    refine ⟨⟨?_, fun c' ↦ ?_⟩, rfl⟩
    · rw [hsame, eraseDups_concat_of_mem hc]
      exact h.symbols
    · have hmem : c' ∈ names ++ [c] ↔ c' ∈ names := by
        rw [List.mem_append, List.mem_singleton]
        exact or_iff_left_of_imp fun he ↦ he ▸ hc
      simp only [hsame, hmem]
      exact h.getElem?_names c'
  · -- the names before a new one keep their symbols
    have hold : names.eraseDups.map (symbolOf kind (names ++ [c])) =
        names.eraseDups.map (symbolOf kind names) :=
      List.map_congr_left fun c' hc' ↦ symbolOf_append (List.mem_eraseDups.1 hc') [c]
    have hnew : (⟨t.symbols.length, c, kind c⟩ : Symbol) = symbolOf kind (names ++ [c]) c := by
      rw [symbolOf, place_concat hc, h.symbols, List.length_map]
    rw [if_neg hc]
    refine ⟨⟨?_, fun c' ↦ ?_⟩, hnew⟩
    · rw [eraseDups_concat_of_not_mem hc, List.map_append, hold]
      exact congrArg₂ _ h.symbols (congrArg (fun s ↦ [s]) hnew)
    · dsimp only
      rw [hnew, Std.TreeMap.getElem?_insert, h.getElem?_names c']
      by_cases he : c = c'
      · subst he
        simp
      · have hmem : c' ∈ names ++ [c] ↔ c' ∈ names := by simp [Ne.symm he]
        simp only [Std.compare_eq_iff_eq, if_neg he, hmem]
        split
        next hc' => rw [symbolOf_append hc']
        next => rfl

theorem Interns.internAll (h : t.Interns kind names) (cs : List String) :
    (t.internAll (cs.map fun c ↦ (c, kind c))).1.Interns kind (names ++ cs) ∧
      (t.internAll (cs.map fun c ↦ (c, kind c))).2 = cs.map (symbolOf kind (names ++ cs)) := by
  induction cs generalizing t names with
  | nil =>
    rw [List.append_nil]
    exact ⟨h, rfl⟩
  | cons c cs ih =>
    obtain ⟨hfirst, hsymbol⟩ := h.intern c
    obtain ⟨hrest, hsymbols⟩ := ih hfirst
    rw [List.append_assoc, List.singleton_append] at hrest hsymbols
    have hhead : (t.intern c (kind c)).2 = symbolOf kind (names ++ c :: cs) c := by
      rw [hsymbol, ← symbolOf_append (by simp) cs, List.append_assoc, List.singleton_append]
    exact ⟨hrest, congrArg₂ List.cons hhead hsymbols⟩

end SymbolTable

end Readings
