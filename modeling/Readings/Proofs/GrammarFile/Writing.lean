import Readings.Proofs.GrammarFile.Token

/-!
Scanning loses nothing and takes no name apart. Tokens written one after the other are the line
without the blanks outside quotes, blanks alone tell two names in a row apart, and tokens written
with a space between them are scanned as they were.
-/

namespace Readings.GrammarFile.Token

/-- The line without its blanks, but with those that stand between quotes. -/
def squeezed (quotes : Bool) : List Char → List Char
  | [] => []
  | c :: line =>
    if c = '"' then c :: squeezed (!quotes) line
    else if Text.isBlank c && !quotes then squeezed quotes line
    else c :: squeezed quotes line

section Squeezed

theorem squeezed_blank {c : Char} (h : Text.isBlank c) (line : List Char) :
    squeezed false (c :: line) = squeezed false line := by
  have hquote : c ≠ '"' := ne_of_isBlank h (by decide)
  simp [squeezed, hquote, h]

theorem squeezed_quote (quotes : Bool) (line : List Char) :
    squeezed quotes ('"' :: line) = '"' :: squeezed (!quotes) line := by
  rw [squeezed, if_pos rfl]

theorem squeezed_append {quotes : Bool} {text : List Char} (hquote : '"' ∉ text)
    (hblank : ∀ c ∈ text, Text.isBlank c → quotes) (line : List Char) :
    squeezed quotes (text ++ line) = text ++ squeezed quotes line := by
  induction text with
  | nil => rfl
  | cons c text ih =>
    obtain ⟨hc, htext⟩ := List.forall_mem_cons.1 hblank
    rw [List.mem_cons, not_or] at hquote
    obtain ⟨hne, hmem⟩ := hquote
    have hkept : ¬ (Text.isBlank c && !quotes) := by
      intro h
      rw [Bool.and_eq_true, Bool.not_eq_true'] at h
      rw [hc h.1] at h
      cases h.2
    rw [List.cons_append, squeezed, if_neg (Ne.symm hne), if_neg hkept, ih hmem htext,
      List.cons_append]

theorem squeezed_written_append {t : Token} (proper : t.IsProper) (line : List Char) :
    squeezed false (t.written ++ line) = t.written ++ squeezed false line := by
  cases t with
  | equals | colon | bar =>
    exact squeezed_append (by simp [written]) (by simp [written, Text.isBlank]) line
  | name text =>
    obtain ⟨-, hall⟩ := proper
    refine squeezed_append (fun h ↦ hall _ h (by decide)) (fun c hc hblank ↦ ?_) line
    exact absurd (by simp [isDelimiter, hblank]) (hall c hc)
  | quoted text =>
    have hclose : squeezed true (text.toList ++ '"' :: line) =
        text.toList ++ squeezed true ('"' :: line) := squeezed_append proper (fun _ _ _ ↦ rfl) _
    simp only [written, List.cons_append, List.append_assoc, List.nil_append, squeezed_quote,
      Bool.not_false, hclose, Bool.not_true]

theorem Spells.flatMap_written {line : List Char} {ts : List Token} (h : Spells line ts) :
    ts.flatMap written = squeezed false line := by
  induction h with
  | nil => rfl
  | blank isBlank _ ih => rw [ih, squeezed_blank isBlank]
  | token proper _ _ ih => rw [List.flatMap_cons, ih, squeezed_written_append proper]

end Squeezed

section Places

variable {line : List Char} {ts before after : List Token} {t : Token}

theorem Spells.isProper (h : Spells line ts) : ∀ t ∈ ts, t.IsProper := by
  induction h with
  | nil => exact nofun
  | blank _ _ ih => exact ih
  | token proper _ _ ih => exact List.forall_mem_cons.2 ⟨proper, ih⟩

theorem spells_nil_iff : Spells line [] ↔ ∀ c ∈ line, Text.isBlank c := by
  constructor
  · intro h
    generalize hts : ([] : List Token) = ts at h
    induction h with
    | nil => exact nofun
    | blank isBlank _ ih => exact List.forall_mem_cons.2 ⟨isBlank, ih hts⟩
    | token => cases hts
  · intro h
    induction line with
    | nil => exact .nil
    | cons c line ih =>
      obtain ⟨hc, hline⟩ := List.forall_mem_cons.1 h
      exact .blank hc (ih hline)

/-- A token stands between a part of the line that spells the tokens before it and one that spells
those after it. -/
theorem Spells.exists_place (h : Spells line (before ++ t :: after)) :
    ∃ left right, line = left ++ (t.written ++ right) ∧ Spells left before ∧ t.EndsBefore right ∧
      Spells right after := by
  generalize hts : before ++ t :: after = ts at h
  induction h generalizing before with
  | nil => simp at hts
  | @blank c line _ isBlank _ ih =>
    obtain ⟨left, right, rfl, hleft, hends, hright⟩ := ih hts
    exact ⟨c :: left, right, rfl, .blank isBlank hleft, hends, hright⟩
  | @token u line us proper ends tail ih =>
    cases before with
    | nil =>
      obtain ⟨rfl, rfl⟩ := List.cons.inj hts
      exact ⟨[], line, rfl, .nil, ends, tail⟩
    | cons b before =>
      obtain ⟨rfl, hus⟩ := List.cons.inj hts
      obtain ⟨left, right, rfl, hleft, hends, hright⟩ := ih hus
      have hb : b.EndsBefore left := by
        cases b with
        | name text =>
          intro c hc
          refine ends c ?_
          rw [List.head?_append]
          exact Option.or_eq_some_iff.2 (.inl hc)
        | equals | colon | bar | quoted => trivial
      exact ⟨b.written ++ left, right, (List.append_assoc ..).symm, .token proper hb hleft, hends,
        hright⟩

/-- Nothing but blanks stands before the first token. -/
theorem Spells.exists_first (h : Spells line (t :: after)) :
    ∃ left right, line = left ++ (t.written ++ right) ∧ (∀ c ∈ left, Text.isBlank c) ∧
      t.EndsBefore right ∧ Spells right after := by
  rw [← List.nil_append (t :: after)] at h
  obtain ⟨left, right, hline, hleft, hends, hright⟩ := h.exists_place
  exact ⟨left, right, hline, spells_nil_iff.1 hleft, hends, hright⟩

/-- Nothing but blanks stands between two names in a row, and something does. -/
theorem Spells.exists_gap {a b : String} (h : Spells line (before ++ name a :: name b :: after)) :
    ∃ left gap right, line = left ++ (a.toList ++ (gap ++ (b.toList ++ right))) ∧ gap ≠ [] ∧
      (∀ c ∈ gap, Text.isBlank c) ∧ Spells left before ∧ Spells right after := by
  have hb : (name b).IsProper := h.isProper _ (by simp)
  obtain ⟨left, rest, rfl, hleft, hends, hrest⟩ := h.exists_place
  obtain ⟨gap, right, rfl, hgap, -, hright⟩ := hrest.exists_first
  refine ⟨left, gap, right, rfl, ?_, hgap, hleft, hright⟩
  -- without a blank the first name would go on with the second
  intro hnil
  obtain ⟨hne, hall⟩ := hb
  obtain ⟨c, cs, hcs⟩ := List.exists_cons_of_ne_nil hne
  have hc : c ∈ b.toList := by simp [hcs]
  refine hall c hc (hends c ?_)
  simp [hnil, written, hcs]

end Places

theorem spells_intercalate {ts : List Token} (h : ∀ t ∈ ts, t.IsProper) :
    Spells ([' '].intercalate (ts.map written)) ts := by
  induction ts with
  | nil => exact .nil
  | cons t ts ih =>
    obtain ⟨ht, hts⟩ := List.forall_mem_cons.1 h
    have hspace : Text.isBlank ' ' := by decide
    cases ts with
    | nil =>
      have hends : t.EndsBefore [] := by cases t <;> simp [EndsBefore]
      simpa using Spells.token ht hends .nil
    | cons u us =>
      have hends (line : List Char) : t.EndsBefore (' ' :: line) := by
        cases t <;> simp [EndsBefore, isDelimiter, hspace]
      rw [List.map_cons, List.map_cons, List.intercalate_cons_cons, List.append_assoc]
      exact .token ht (hends _) (.blank hspace (ih hts))

/-- Every line is scanned unless a quote is left over. The tokens written one after the other are the
line without the blanks outside quotes, each is proper, and two names in a row are told apart by
blanks in the line. Conversely, proper tokens are scanned from what is written for them with a space
between each two. -/
theorem scan_lossless (line : List Char) :
    ((∃ ts, scan line = .ok ts) ↔ Even (line.count '"')) ∧
    (∀ cause, scan line = .error cause ↔ Odd (line.count '"') ∧ cause = .unmatchedQuote) ∧
    (∀ ts, scan line = .ok ts → ts.flatMap written = squeezed false line ∧
      (∀ t ∈ ts, t.IsProper) ∧
      ∀ before a b after, ts = before ++ name a :: name b :: after → ∃ left gap right,
        line = left ++ (a.toList ++ (gap ++ (b.toList ++ right))) ∧ gap ≠ [] ∧
          (∀ c ∈ gap, Text.isBlank c) ∧ scan left = .ok before ∧ scan right = .ok after) ∧
    ∀ ts : List Token, (∀ t ∈ ts, t.IsProper) →
      scan ([' '].intercalate (ts.map written)) = .ok ts := by
  refine ⟨?_, fun cause ↦ scan_eq_error_iff, fun ts hts ↦ ?_, fun ts h ↦ ?_⟩
  · simp only [scan_eq_ok_iff]
    exact ⟨fun ⟨_, hts⟩ ↦ hts.even_count, fun h ↦ (even_count_iff.1 h).exists⟩
  · have hspells := scan_eq_ok_iff.1 hts
    refine ⟨hspells.flatMap_written, hspells.isProper, fun before a b after he ↦ ?_⟩
    rw [he] at hspells
    obtain ⟨left, gap, right, hline, hne, hblank, hleft, hright⟩ := hspells.exists_gap
    exact ⟨left, gap, right, hline, hne, hblank, hleft.scan_eq, hright.scan_eq⟩
  · exact (spells_intercalate h).scan_eq

/-- Separators and quotes need no blanks around them. -/
theorem scan_lossless_touching :
    let line := "NP= Det\tN\"a | b\"|\"\"".toList
    let ts := [name "NP", equals, name "Det", name "N", quoted "a | b", bar, quoted ""]
    scan line = .ok ts ∧ ts.flatMap written = squeezed false line ∧
      (∃ left gap right, line = left ++ ("Det".toList ++ (gap ++ ("N".toList ++ right))) ∧
        gap ≠ [] ∧ (∀ c ∈ gap, Text.isBlank c) ∧ scan left = .ok [name "NP", equals] ∧
          scan right = .ok [quoted "a | b", bar, quoted ""]) ∧
      scan ([' '].intercalate (ts.map written)) = .ok ts := by
  intro line ts
  have hscan : scan line = .ok ts := by decide +kernel
  obtain ⟨-, -, hlossless, hspaced⟩ := scan_lossless line
  obtain ⟨hsqueezed, hproper, hgap⟩ := hlossless ts hscan
  refine ⟨hscan, hsqueezed, ?_, hspaced ts hproper⟩
  exact hgap [name "NP", equals] "Det" "N" [quoted "a | b", bar, quoted ""] rfl

end Readings.GrammarFile.Token
