import Mathlib.Algebra.Ring.Parity
import Mathlib.Data.List.TakeWhile
import Readings.GrammarFile.Form
import Readings.Proofs.Except

/-!
Scanning a line finds the one sequence of tokens that the line spells. There is one if and only if
the quotes of the line are even in number.
-/

namespace Readings.GrammarFile.Token

section Scan

theorem takeWhile_ne_quote {text : List Char} (h : '"' ∉ text) (line : List Char) :
    (text ++ '"' :: line).takeWhile (· ≠ '"') = text := by
  have hall : ∀ c ∈ text, decide (c ≠ '"') = true := fun c hc ↦
    decide_eq_true (ne_of_mem_of_not_mem hc h)
  rw [List.takeWhile_append_of_pos hall]
  simp

theorem dropWhile_ne_quote {text : List Char} (h : '"' ∉ text) (line : List Char) :
    (text ++ '"' :: line).dropWhile (· ≠ '"') = '"' :: line := by
  have hall : ∀ c ∈ text, decide (c ≠ '"') = true := fun c hc ↦
    decide_eq_true (ne_of_mem_of_not_mem hc h)
  rw [List.dropWhile_append_of_pos hall]
  simp

theorem takeWhile_name {text line : List Char} (h : ∀ c ∈ text, ¬ isDelimiter c)
    (hline : ∀ c ∈ line.head?, isDelimiter c) :
    (text ++ line).takeWhile (!isDelimiter ·) = text := by
  rw [List.takeWhile_append_of_pos fun c hc ↦ by simpa using h c hc]
  cases line with
  | nil => simp
  | cons c line => simp [hline c rfl]

theorem dropWhile_name {text line : List Char} (h : ∀ c ∈ text, ¬ isDelimiter c)
    (hline : ∀ c ∈ line.head?, isDelimiter c) :
    (text ++ line).dropWhile (!isDelimiter ·) = line := by
  rw [List.dropWhile_append_of_pos fun c hc ↦ by simpa using h c hc]
  cases line with
  | nil => rfl
  | cons c line => simp [hline c rfl]

theorem scan_quote (rest : List Char) :
    scan ('"' :: rest) = match rest.dropWhile (· ≠ '"') with
      | [] => .error .unmatchedQuote
      | _ :: line => (quoted (String.ofList (rest.takeWhile (· ≠ '"'))) :: ·) <$> scan line := by
  rw [scan, if_neg (by decide), if_neg (by decide), if_neg (by decide), if_pos rfl]
  split
  · next h => rw [h]
  · next h => rw [h]

theorem scan_unclosed {text : List Char} (h : '"' ∉ text) :
    scan ('"' :: text) = .error .unmatchedQuote := by
  have hdrop : text.dropWhile (· ≠ '"') = [] :=
    List.dropWhile_eq_nil_iff.2 fun c hc ↦ decide_eq_true (ne_of_mem_of_not_mem hc h)
  rw [scan_quote, hdrop]

theorem ne_of_isBlank {c d : Char} (h : Text.isBlank c) (hd : Text.isBlank d = false) : c ≠ d := by
  intro he
  rw [he, hd] at h
  cases h

theorem scan_cons_of_isBlank {c : Char} {line : List Char} (h : Text.isBlank c) :
    scan (c :: line) = scan line := by
  have hequals : c ≠ '=' := ne_of_isBlank h (by decide)
  have hcolon : c ≠ ':' := ne_of_isBlank h (by decide)
  have hbar : c ≠ '|' := ne_of_isBlank h (by decide)
  have hquote : c ≠ '"' := ne_of_isBlank h (by decide)
  rw [scan, if_neg hequals, if_neg hcolon, if_neg hbar, if_neg hquote, if_pos h]

theorem scan_cons_of_not_isDelimiter {c : Char} {rest : List Char} (h : ¬ isDelimiter c) :
    scan (c :: rest) = (name (String.ofList (c :: rest.takeWhile (!isDelimiter ·))) :: ·) <$>
      scan (rest.dropWhile (!isDelimiter ·)) := by
  simp only [isDelimiter, Bool.or_eq_true, beq_iff_eq, not_or] at h
  obtain ⟨⟨⟨⟨hblank, hequals⟩, hcolon⟩, hbar⟩, hquote⟩ := h
  rw [scan, if_neg hequals, if_neg hcolon, if_neg hbar, if_neg hquote, if_neg hblank]

/-- What is written for a token is scanned as that token. -/
theorem scan_written_append {t : Token} {line : List Char} (proper : t.IsProper)
    (ends : t.EndsBefore line) : scan (t.written ++ line) = (t :: ·) <$> scan line := by
  cases t with
  | equals | colon | bar => rw [written, List.singleton_append, scan]; rfl
  | quoted text =>
    have hwritten : (quoted text).written ++ line = '"' :: (text.toList ++ '"' :: line) := by
      simp [written]
    rw [hwritten, scan_quote, takeWhile_ne_quote proper, dropWhile_ne_quote proper,
      String.ofList_toList]
  | name text =>
    obtain ⟨hne, hall⟩ := proper
    obtain ⟨c, cs, hcs⟩ := List.exists_cons_of_ne_nil hne
    rw [hcs] at hall
    obtain ⟨hc, hall⟩ := List.forall_mem_cons.1 hall
    rw [written, hcs, List.cons_append, scan_cons_of_not_isDelimiter hc, takeWhile_name hall ends,
      dropWhile_name hall ends, ← hcs, String.ofList_toList]

end Scan

/-- A line is empty, begins with a blank or with a token, or holds a quote that is not closed. -/
@[elab_as_elim]
theorem line_induction {P : List Char → Prop} (nil : P [])
    (blank : ∀ c line, Text.isBlank c → P line → P (c :: line))
    (token : ∀ (t : Token) line, t.IsProper → t.EndsBefore line → P line → P (t.written ++ line))
    (unclosed : ∀ text, '"' ∉ text → P ('"' :: text)) (line : List Char) : P line := by
  induction line using scan.induct with
  | case1 => exact nil
  | case2 line ih => exact token .equals line trivial trivial ih
  | case3 line _ ih => exact token .colon line trivial trivial ih
  | case4 line _ _ ih => exact token .bar line trivial trivial ih
  | case5 rest hdrop =>
    refine unclosed rest fun hmem ↦ ?_
    have hquote := List.dropWhile_eq_nil_iff.1 hdrop _ hmem
    simp at hquote
  | case6 rest c line hdrop _ _ _ ih =>
    have hmem : '"' ∈ rest := by
      by_contra hmem
      rw [List.dropWhile_eq_nil_iff.2 fun c hc ↦ decide_eq_true (ne_of_mem_of_not_mem hc hmem)]
        at hdrop
      cases hdrop
    obtain ⟨text, line', rfl, htext⟩ := List.eq_append_cons_of_mem hmem
    rw [dropWhile_ne_quote htext] at hdrop
    obtain ⟨rfl, rfl⟩ := List.cons.inj hdrop
    have h := token (.quoted (String.ofList text)) line' (by simpa [IsProper]) trivial ih
    simpa [written] using h
  | case7 c line _ _ _ _ hblank ih => exact blank c line hblank ih
  | case8 c rest hequals hcolon hbar hquote hblank ih =>
    have hname : (name (String.ofList (c :: rest.takeWhile (!isDelimiter ·)))).IsProper := by
      rw [IsProper, String.toList_ofList]
      refine ⟨List.cons_ne_nil _ _, List.forall_mem_cons.2 ⟨?_, fun d hd ↦ ?_⟩⟩
      · simp [isDelimiter, hequals, hcolon, hbar, hquote, hblank]
      · simpa using List.mem_takeWhile_imp hd
    have hends : ∀ d ∈ (rest.dropWhile (!isDelimiter ·)).head?, isDelimiter d := by
      intro d hd
      have h := List.head?_dropWhile_not (!isDelimiter ·) rest
      rw [Option.mem_def.1 hd] at h
      simpa using h
    have h := token _ _ hname hends ih
    simpa [written] using h

theorem even_count_written {t : Token} (proper : t.IsProper) : Even (t.written.count '"') := by
  cases t with
  | equals | colon | bar => exact ⟨0, rfl⟩
  | quoted text =>
    have hcount : (quoted text).written.count '"' = 2 := by
      simp [written, List.count_eq_zero_of_not_mem proper]
    exact ⟨1, hcount⟩
  | name text =>
    have hmem : '"' ∉ text.toList := fun hmem ↦ proper.2 _ hmem (by decide)
    exact ⟨0, List.count_eq_zero_of_not_mem hmem⟩

/-- The scan finds what the line spells, unless a quote is left over. -/
theorem scan_cases (line : List Char) :
    (Even (line.count '"') ∧ ∃ ts, Spells line ts) ∨
      (Odd (line.count '"') ∧ scan line = .error .unmatchedQuote) := by
  induction line using line_induction with
  | nil => exact .inl ⟨⟨0, rfl⟩, [], .nil⟩
  | blank c line hc ih =>
    rw [scan_cons_of_isBlank hc, List.count_cons_of_ne (ne_of_isBlank hc (by decide))]
    refine ih.imp_left fun h ↦ ?_
    obtain ⟨heven, ts, hts⟩ := h
    exact ⟨heven, ts, .blank hc hts⟩
  | token t line proper ends ih =>
    have hwritten := even_count_written proper
    rw [scan_written_append proper ends, List.count_append]
    obtain ⟨heven, ts, hts⟩ | ⟨hodd, hscan⟩ := ih
    · exact .inl ⟨hwritten.add heven, t :: ts, .token proper ends hts⟩
    · exact .inr ⟨hwritten.add_odd hodd, map_eq_error_iff.2 hscan⟩
  | unclosed text htext =>
    rw [List.count_cons_self, List.count_eq_zero_of_not_mem htext]
    exact .inr ⟨odd_one, scan_unclosed htext⟩

theorem Spells.scan_eq {line : List Char} {ts : List Token} (h : Spells line ts) :
    scan line = .ok ts := by
  induction h with
  | nil => rw [scan]
  | blank isBlank _ ih => rw [scan_cons_of_isBlank isBlank, ih]
  | token proper ends _ ih =>
    rw [scan_written_append proper ends, ih]
    rfl

theorem Spells.unique {line : List Char} {ts ts' : List Token} (h : Spells line ts)
    (h' : Spells line ts') : ts = ts' := Except.ok.inj (h.scan_eq.symm.trans h'.scan_eq)

theorem scan_eq_ok_iff {line : List Char} {ts : List Token} :
    scan line = .ok ts ↔ Spells line ts := by
  refine ⟨fun h ↦ ?_, Spells.scan_eq⟩
  obtain ⟨-, ts', hts'⟩ | ⟨-, hscan⟩ := scan_cases line
  · rw [hts'.scan_eq] at h
    exact Except.ok.inj h ▸ hts'
  · rw [hscan] at h
    cases h

theorem scan_eq_error_iff {line : List Char} {cause : Cause} :
    scan line = .error cause ↔ Odd (line.count '"') ∧ cause = .unmatchedQuote := by
  obtain ⟨heven, ts, hts⟩ | ⟨hodd, hscan⟩ := scan_cases line
  · rw [hts.scan_eq]
    exact iff_of_false nofun fun h ↦ Nat.not_odd_iff_even.2 heven h.1
  · rw [hscan, and_iff_right hodd, Except.error.injEq, eq_comm]

theorem Spells.even_count {line : List Char} {ts : List Token} (h : Spells line ts) :
    Even (line.count '"') := by
  obtain ⟨heven, -⟩ | ⟨-, hscan⟩ := scan_cases line
  · exact heven
  · rw [h.scan_eq] at hscan
    cases hscan

theorem even_count_iff {line : List Char} : Even (line.count '"') ↔ ∃! ts, Spells line ts := by
  constructor
  · intro heven
    obtain ⟨-, ts, hts⟩ | ⟨hodd, -⟩ := scan_cases line
    · exact ⟨ts, hts, fun ts' h ↦ h.unique hts⟩
    · exact absurd heven (Nat.not_even_iff_odd.2 hodd)
  · intro h
    obtain ⟨ts, hts, -⟩ := h
    exact hts.even_count

/-- Only a blank line spells nothing. -/
theorem Spells.ne_nil {line : List Char} {ts : List Token} (h : Spells line ts)
    (hline : ∃ c ∈ line, ¬ Text.isBlank c) : ts ≠ [] := by
  induction h with
  | nil =>
    obtain ⟨c, hc, -⟩ := hline
    cases hc
  | blank isBlank _ ih =>
    obtain ⟨c, hc, hblank⟩ := hline
    obtain rfl | hc := List.mem_cons.1 hc
    · exact absurd isBlank hblank
    · exact ih ⟨c, hc, hblank⟩
  | token => exact List.cons_ne_nil _ _

end Readings.GrammarFile.Token
