import Readings.Proofs.GrammarFile.Load
import Readings.Proofs.GrammarFile.Line

/-!
Numbers of lines say where something is reported and nothing else. What comes of a line does not
depend on its number, nor on blanks at its end, and lines that are numbered in another way are
reported under their new numbers.
-/

namespace Readings.GrammarFile

namespace Token

variable {c : Char} {line : List Char} {ts : List Token}

theorem Spells.concat_blank (h : Spells line ts) (hc : Text.isBlank c) :
    Spells (line ++ [c]) ts := by
  induction h with
  | nil => exact .blank hc .nil
  | blank isBlank _ ih => exact .blank isBlank ih
  | @token t line _ proper ends _ ih =>
    rw [List.append_assoc]
    refine .token proper ?_ ih
    cases t with
    | name text =>
      intro d hd
      cases line with
      | nil =>
        obtain rfl : c = d := by simpa using hd
        simp [isDelimiter, hc]
      | cons a line => exact ends d hd
    | equals | colon | bar | quoted => trivial

theorem scan_concat_blank (hc : Text.isBlank c) (line : List Char) :
    scan (line ++ [c]) = scan line := by
  cases hscan : scan line with
  | ok ts => exact ((scan_eq_ok_iff.1 hscan).concat_blank hc).scan_eq
  | error cause =>
    have hquote : c ≠ '"' := ne_of_isBlank hc (by decide)
    rw [scan_eq_error_iff] at hscan ⊢
    rwa [List.count_append, List.count_singleton, beq_false_of_ne hquote, if_neg Bool.false_ne_true,
      Nat.add_zero]

end Token

namespace Line

theorem isMeaningful_concat_blank {c : Char} (hc : Text.isBlank c) (line : List Char) :
    isMeaningful (line ++ [c]) = isMeaningful line := by
  rw [isMeaningful, isMeaningful, List.dropWhile_append]
  cases line.dropWhile Text.isBlank with
  | nil => simp [hc]
  | cons d rest => rfl

theorem read?_concat_blank {c : Char} (hc : Text.isBlank c) (line : List Char) :
    read? (line ++ [c]) = read? line := by
  rw [read?, read?, isMeaningful_concat_blank hc, parse, parse, Token.scan_concat_blank hc]

end Line

section Locate

variable {path : String} {f : Nat → Nat}

def Error.renumber (f : Nat → Nat) (e : Error) : Error :=
  { e with location := { e.location with line := f e.location.line } }

def Definition.renumber (f : Nat → Nat) (d : Definition) : Definition :=
  { d with number := f d.number }

def renumber (f : Nat → Nat) : Except Error Definition → Except Error Definition
  | .ok d => .ok (d.renumber f)
  | .error e => .error (e.renumber f)

/-- What comes of lines, numbered from `k`. -/
def locate (path : String) (k : Nat) (rs : List (Option (Except Cause Line))) :
    List (Except Error Definition) :=
  (rs.zipIdx k).filterMap fun (r, number) ↦ r.map (located path number)

theorem locate_cons (k : Nat) (r : Option (Except Cause Line))
    (rs : List (Option (Except Cause Line))) :
    locate path k (r :: rs) = (r.map (located path k)).toList ++ locate path (k + 1) rs := by
  cases r <;> simp [locate]

theorem locate_append (k : Nat) (rs rs' : List (Option (Except Cause Line))) :
    locate path k (rs ++ rs') = locate path k rs ++ locate path (k + rs.length) rs' := by
  rw [locate, List.zipIdx_append, List.filterMap_append]
  rfl

theorem map_renumber_locate {k k' : Nat} {rs : List (Option (Except Cause Line))}
    (h : ∀ i < rs.length, f (k + i) = k' + i) :
    (locate path k rs).map (renumber f) = locate path k' rs := by
  induction rs generalizing k k' with
  | nil => rfl
  | cons r rs ih =>
    have hhead : f k = k' := h 0 (Nat.zero_lt_succ _)
    have htail : ∀ i < rs.length, f (k + 1 + i) = k' + 1 + i := by
      intro i hi
      rw [Nat.add_assoc, Nat.add_assoc, Nat.add_comm 1 i]
      exact h (i + 1) (Nat.succ_lt_succ hi)
    have hlocated (read : Except Cause Line) :
        renumber f (located path k read) = located path k' read := by
      rw [← hhead]
      cases read <;> rfl
    rw [locate_cons, locate_cons, List.map_append, ih htail]
    cases r <;> simp [hlocated]

theorem map_cause_failures_locate (k : Nat) (rs : List (Option (Except Cause Line))) :
    (failures (locate path k rs)).map (·.cause) = failures (rs.filterMap id) := by
  induction rs generalizing k with
  | nil => rfl
  | cons r rs ih =>
    rw [locate_cons, failures_append, List.map_append, ih]
    cases r with
    | none => rfl
    | some read => cases read <;> rfl

theorem map_line_successes_locate (k : Nat) (rs : List (Option (Except Cause Line))) :
    (successes (locate path k rs)).map (·.line) = successes (rs.filterMap id) := by
  induction rs generalizing k with
  | nil => rfl
  | cons r rs ih =>
    rw [locate_cons, successes_append, List.map_append, ih]
    cases r with
    | none => rfl
    | some read => cases read <;> rfl

theorem readText_eq {text : String} {ls : List (List Char)} (h : Text.Lined text.toList ls) :
    readText path text = locate path 1 (ls.map Line.read?) := by
  have hmap := h.map_lines (f := Line.read?) fun line ↦ Line.read?_concat_blank (by decide) line
  rw [readText, readLines, List.zipIdx_map, List.filterMap_map, ← hmap, locate, List.zipIdx_map,
    List.filterMap_map]
  exact List.filterMap_congr fun p _ ↦ readLine_eq path p.1 p.2

end Locate

section Renumber

variable {path : String} {f : Nat → Nat}

theorem failures_map_renumber (rs : List (Except Error Definition)) :
    failures (rs.map (renumber f)) = (failures rs).map (Error.renumber f) := by
  rw [failures, failures, List.filterMap_map, List.map_filterMap]
  refine List.filterMap_congr fun r _ ↦ ?_
  cases r <;> rfl

theorem successes_map_renumber (rs : List (Except Error Definition)) :
    successes (rs.map (renumber f)) = (successes rs).map (Definition.renumber f) := by
  rw [successes, successes, List.filterMap_map, List.map_filterMap]
  refine List.filterMap_congr fun r _ ↦ ?_
  cases r <;> rfl

theorem undefinedNames_map_renumber (ds : List Definition) :
    undefinedNames path (ds.map (Definition.renumber f)) =
      (undefinedNames path ds).map (Error.renumber f) := by
  simp only [undefinedNames, List.flatMap_map, List.map_flatMap, List.map_map]
  rfl

theorem start?_map_renumber (ds : List Definition) :
    start? (ds.map (Definition.renumber f)) = start? ds := by
  rw [start?_eq_findSome?, start?_eq_findSome?, List.findSome?_map]
  rfl

theorem draft_map_renumber (ds : List Definition) (start : String) :
    draft (ds.map (Definition.renumber f)) start = draft ds start := by
  rw [draft, draft, List.flatMap_map, List.flatMap_map]
  rfl

variable (hf : f 0 = 0)
include hf

/-- What is said of the file as a whole, at line 0, goes on being said of it. -/
theorem map_grammar_resolve_renumber (ds : List Definition) :
    (·.grammar) <$> resolve path (ds.map (Definition.renumber f)) =
      ((·.grammar) <$> resolve path ds).mapError (List.map (Error.renumber f)) := by
  have hwhole (cause : Cause) : Error.renumber f ⟨⟨path, 0⟩, cause⟩ = ⟨⟨path, 0⟩, cause⟩ := by
    rw [Error.renumber, hf]
  by_cases h : undefinedNames path ds = []
  · have h' : undefinedNames path (ds.map (Definition.renumber f)) = [] := by
      rw [undefinedNames_map_renumber, h, List.map_nil]
    cases hstart : start? ds with
    | none =>
      rw [resolve_of_start?_eq_none h hstart, resolve_of_start?_eq_none h']
      · exact congrArg (Except.error [·]) (hwhole _).symm
      · rw [start?_map_renumber, hstart]
    | some start =>
      have hstart' := (start?_map_renumber (f := f) ds).trans hstart
      have hdraft := draft_map_renumber (f := f) ds start
      cases hbuild : (draft ds start).build with
      | ok g =>
        rw [resolve_of_build_eq_ok h hstart hbuild,
          resolve_of_build_eq_ok h' hstart' (hdraft ▸ hbuild)]
        rfl
      | error e =>
        rw [resolve_of_build_eq_error h hstart hbuild,
          resolve_of_build_eq_error h' hstart' (hdraft ▸ hbuild)]
        exact congrArg (Except.error [·]) (hwhole _).symm
  · rw [resolve_of_undefined h, resolve_of_undefined, undefinedNames_map_renumber]
    · rfl
    · rwa [undefinedNames_map_renumber, ne_eq, List.map_eq_nil_iff]

theorem map_grammar_ofText_renumber {text edited : String}
    (h : readText path edited = (readText path text).map (renumber f)) :
    (·.grammar) <$> ofText path edited =
      ((·.grammar) <$> ofText path text).mapError (List.map (Error.renumber f)) := by
  have hfailures : failures (readText path edited) =
      (failures (readText path text)).map (Error.renumber f) := by
    rw [h, failures_map_renumber]
  by_cases hnil : failures (readText path text) = []
  · have hnil' : failures (readText path edited) = [] := by rw [hfailures, hnil, List.map_nil]
    rw [ofText_of_successes hnil, ofText_of_successes hnil', h, successes_map_renumber,
      map_grammar_resolve_renumber hf]
  · rw [ofText_of_failures hnil, ofText_of_failures, hfailures]
    · rfl
    · rwa [hfailures, ne_eq, List.map_eq_nil_iff]

end Renumber

end Readings.GrammarFile
