import Readings.Proofs.Grammar.Interning

/-!
The tables of rules and of words, when symbols are numbered in the order in which some names are
met: what has been put in is found again by symbols, as it would be by their names.
-/

namespace Readings

theorem getD_putUnder {κ α : Type} [Ord κ] [Std.TransOrd κ] [Std.LawfulEqOrd κ] [DecidableEq κ]
    (m : Std.TreeMap κ (List α)) (k k' : κ) (x : α) :
    (putUnder m k x).getD k' [] = m.getD k' [] ++ if k = k' then [x] else [] := by
  rw [putUnder, Std.TreeMap.getD_insert]
  by_cases hk : k = k'
  · subst hk
    simp
  · simp [hk]

/-- Rules numbered in the order in which they are declared. -/
def numbered (rules : List Production) : List Rule := rules.zipIdx.map fun p ↦ ⟨p.1, p.2⟩

theorem getElem?_numbered (rules : List Production) (i : Nat) :
    (numbered rules)[i]? = rules[i]?.map (⟨·, i⟩) := by
  rw [numbered, List.getElem?_map, List.getElem?_zipIdx, Option.map_map, Nat.zero_add]
  rfl

theorem map_toProduction_numbered (rules : List Production) :
    (numbered rules).map (·.toProduction) = rules := by
  rw [numbered, List.map_map]
  exact List.zipIdx_map_fst 0 rules

theorem length_numbered (rules : List Production) : (numbered rules).length = rules.length := by
  rw [numbered, List.length_map, List.length_zipIdx]

theorem numbered_concat (rules : List Production) (p : Production) :
    numbered (rules ++ [p]) = numbered rules ++ [⟨p, rules.length⟩] := by
  simp [numbered, List.zipIdx_append]

theorem mem_numbered_iff {rules : List Production} {r : Rule} :
    r ∈ numbered rules ↔ rules[r.id]? = some r.toProduction := by
  rw [List.mem_iff_getElem?]
  constructor
  · intro h
    obtain ⟨i, hi⟩ := h
    rw [getElem?_numbered, Option.map_eq_some_iff] at hi
    obtain ⟨p, hp, rfl⟩ := hi
    exact hp
  · intro h
    refine ⟨r.id, ?_⟩
    rw [getElem?_numbered, h]
    rfl

theorem getElem?_of_mem_numbered {rules : List Production} {r : Rule} (hr : r ∈ numbered rules) :
    (numbered rules)[r.id]? = some r := by
  rw [getElem?_numbered, mem_numbered_iff.1 hr]
  rfl

theorem toProduction_mem_of_mem_numbered {rules : List Production} {r : Rule}
    (hr : r ∈ numbered rules) : r.toProduction ∈ rules :=
  List.mem_of_getElem? (mem_numbered_iff.1 hr)

theorem numbered_increasing (rules : List Production) :
    (numbered rules).Pairwise (·.id < ·.id) := by
  rw [List.pairwise_iff_getElem]
  intro i j hi hj hij
  have hid (k : Nat) (hk : k < (numbered rules).length) : (numbered rules)[k].id = k := by
    simp [numbered]
  rw [hid i hi, hid j hj]
  exact hij

variable {kind : String → Kind} {names : List String}

namespace RuleTable

variable {t : RuleTable} {rules : List Production} {p : Production}

/-- The table holds the rules, and their names are among those that are numbered. -/
structure Lists (t : RuleTable) (names : List String) (rules : List Production) : Prop where
  subset : ∀ p ∈ rules, p.lhs :: p.rhs ⊆ names
  rules_eq : t.rules = numbered rules
  getD_byLhs : ∀ i, t.byLhs.getD i [] =
    ((numbered rules).filter fun r ↦ place names r.lhs == i).map (·.id)

theorem lists_nil (names : List String) : Lists {} names [] where
  subset := by simp
  rules_eq := rfl
  getD_byLhs i := by simp [numbered]

theorem Lists.lhs_mem (h : t.Lists names rules) {r : Rule} (hr : r ∈ numbered rules) :
    r.lhs ∈ names :=
  h.subset _ (toProduction_mem_of_mem_numbered hr) List.mem_cons_self

theorem Lists.append_names (h : t.Lists names rules) (more : List String) :
    t.Lists (names ++ more) rules where
  subset p hp := fun c hc ↦ List.mem_append_left more (h.subset p hp hc)
  rules_eq := h.rules_eq
  getD_byLhs i := by
    rw [h.getD_byLhs]
    refine congrArg _ (List.filter_congr fun r hr ↦ ?_)
    rw [place_append (h.lhs_mem hr)]

theorem Lists.push (h : t.Lists names rules) (hp : p.lhs :: p.rhs ⊆ names) :
    (t.push (symbolOf kind names p.lhs) p).Lists names (rules ++ [p]) where
  subset := by
    rw [List.forall_mem_append, List.forall_mem_singleton]
    exact ⟨h.subset, hp⟩
  rules_eq := by
    rw [RuleTable.push, h.rules_eq, numbered_concat, length_numbered]
  getD_byLhs i := by
    rw [RuleTable.push, getD_putUnder, h.getD_byLhs, h.rules_eq, length_numbered, numbered_concat,
      List.filter_append, List.map_append]
    by_cases hi : place names p.lhs = i <;> simp [symbolOf, hi]

theorem Lists.rulesFor_symbolOf (h : t.Lists names rules) (c : String) :
    t.rulesFor (symbolOf kind names c) = (numbered rules).filter (·.lhs == c) := by
  have hheads : (numbered rules).filter (fun r ↦ place names r.lhs == place names c) =
      (numbered rules).filter (·.lhs == c) := by
    refine List.filter_congr fun r hr ↦ ?_
    rw [Bool.eq_iff_iff, beq_iff_eq, beq_iff_eq, place_inj (h.lhs_mem hr)]
  rw [rulesFor, h.rules_eq, symbolOf, h.getD_byLhs, hheads, List.filterMap_map]
  refine (List.filterMap_congr fun r hr ↦ ?_).trans List.filterMap_some
  exact getElem?_of_mem_numbered (List.mem_of_mem_filter hr)

end RuleTable

namespace WordTable

variable {t : WordTable} {words : List LexicalEntry} {w : LexicalEntry}

/-- The table holds the words, each once, and their categories are among the names that are
numbered. -/
structure Lists (kind : String → Kind) (t : WordTable) (names : List String)
    (words : List LexicalEntry) : Prop where
  subset : ∀ w ∈ words, w.category ∈ names
  terminalsFor : ∀ token, t.terminalsFor token =
    (words.eraseDups.filter (·.token == token)).map fun w ↦ symbolOf kind names w.category
  getD_byTerminal : ∀ i, t.byTerminal.getD i [] =
    (words.eraseDups.filter fun w ↦ place names w.category == i).map (·.token)

theorem lists_nil (names : List String) : Lists kind {} names [] where
  subset := by simp
  terminalsFor token := by simp [WordTable.terminalsFor]
  getD_byTerminal i := by simp

theorem Lists.append_names (h : t.Lists kind names words) (more : List String) :
    t.Lists kind (names ++ more) words where
  subset w hw := List.mem_append_left more (h.subset w hw)
  terminalsFor token := by
    rw [h.terminalsFor]
    refine List.map_congr_left fun w hw ↦ (symbolOf_append (h.subset w ?_) more).symm
    exact List.mem_eraseDups.1 (List.mem_of_mem_filter hw)
  getD_byTerminal i := by
    rw [h.getD_byTerminal]
    refine congrArg _ (List.filter_congr fun w hw ↦ ?_)
    rw [place_append (h.subset w (List.mem_eraseDups.1 hw))]

/-- A terminal is already listed for a token if and only if the word has been declared. -/
theorem Lists.any_terminalsFor_iff (h : t.Lists kind names words) :
    ((t.terminalsFor w.token).any fun s ↦ s.id == (symbolOf kind names w.category).id) ↔
      w ∈ words := by
  simp only [h.terminalsFor, List.any_map, List.any_eq_true, List.mem_filter, List.mem_eraseDups,
    Function.comp_apply, beq_iff_eq, symbolOf]
  constructor
  · intro hany
    obtain ⟨⟨token, category⟩, ⟨hmem, rfl⟩, hplace⟩ := hany
    rw [place_inj (h.subset _ hmem)] at hplace
    dsimp only at hplace
    subst hplace
    exact hmem
  · intro hw
    exact ⟨w, ⟨hw, rfl⟩, rfl⟩

theorem Lists.insert (h : t.Lists kind names words) (hw : w.category ∈ names) :
    (t.insert w.token (symbolOf kind names w.category)).Lists kind names (words ++ [w]) := by
  have hsubset : ∀ w' ∈ words ++ [w], w'.category ∈ names := by
    rw [List.forall_mem_append, List.forall_mem_singleton]
    exact ⟨h.subset, hw⟩
  rw [WordTable.insert]
  by_cases hold : w ∈ words
  · rw [if_pos (h.any_terminalsFor_iff.2 hold)]
    constructor
    · exact hsubset
    · rw [eraseDups_concat, if_pos hold]
      exact h.terminalsFor
    · rw [eraseDups_concat, if_pos hold]
      exact h.getD_byTerminal
  · rw [if_neg (mt h.any_terminalsFor_iff.1 hold)]
    constructor
    · exact hsubset
    · intro token
      rw [eraseDups_concat, if_neg hold, List.filter_append, List.map_append, ← h.terminalsFor,
        WordTable.terminalsFor, getD_putUnder, WordTable.terminalsFor]
      by_cases htoken : w.token = token <;> simp [htoken]
    · intro i
      rw [eraseDups_concat, if_neg hold, List.filter_append, List.map_append, ← h.getD_byTerminal,
        getD_putUnder]
      by_cases hi : place names w.category = i <;> simp [symbolOf, hi]

theorem Lists.wordsOf_symbolOf (h : t.Lists kind names words) (c : String) :
    t.wordsOf (symbolOf kind names c) =
      (words.eraseDups.filter (·.category == c)).map (·.token) := by
  rw [wordsOf, symbolOf, h.getD_byTerminal]
  refine congrArg _ (List.filter_congr fun w hw ↦ ?_)
  rw [Bool.eq_iff_iff, beq_iff_eq, beq_iff_eq,
    place_inj (h.subset w (List.mem_eraseDups.1 hw))]

end WordTable

end Readings
