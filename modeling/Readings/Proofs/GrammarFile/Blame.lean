import Readings.Proofs.GrammarFile.Line
import Readings.Proofs.GrammarFile.Load

/-!
What goes wrong in loading is laid to the file. Two causes would be faults of the loading itself: a
line without tokens and an alternative with a bar in it. Neither is handed on, since a line that is
kept has something in it that is not blank, and since alternatives are split at every bar.
-/

namespace Readings.GrammarFile

def Cause.isInternal : Cause → Bool
  | unsplitAlternatives | unexpectedBlankLine => true
  | _ => false

/-- Loading a text never finds itself at fault: no such error is reported, and what would be one is
not handed on. -/
structure Blameless (path text : String) : Prop where
  reported : ∀ es, ofText path text = .error es → ∀ e ∈ es, ¬ e.cause.isInternal
  /-- A line that is kept cannot be scanned, or it has a token. -/
  scanned : ∀ number line, Text.IsLine text.toList number line → Line.isMeaningful line →
    (∃ cause, Token.scan line = .error cause) ∨ ∃ t ts, Token.scan line = .ok (t :: ts)
  /-- There is no bar in what is read as an alternative. -/
  split : ∀ number line head rest, Text.IsLine text.toList number line → Line.isMeaningful line →
    Token.scan line = .ok (.name head :: .equals :: rest) →
      ∀ tokens ∈ Text.pieces .bar rest, .bar ∉ tokens

namespace Line

variable {line : List Char} {tokens : List Token} {cause : Cause}

theorem exists_not_isBlank (h : isMeaningful line) : ∃ c ∈ line, ¬ Text.isBlank c := by
  by_contra hblank
  simp only [not_exists, not_and, not_not] at hblank
  rw [isMeaningful_eq_false_iff.2 (.blank hblank)] at h
  cases h

theorem ne_nil_of_scan (h : isMeaningful line) (hscan : Token.scan line = .ok tokens) :
    tokens ≠ [] :=
  (Token.scan_eq_ok_iff.1 hscan).ne_nil (exists_not_isBlank h)

theorem Fault.not_isInternal (h : Fault tokens cause) : ¬ cause.isInternal := by
  cases h with
  | category | separator | noWords => exact Bool.false_ne_true
  | alternative split sound fault => cases fault <;> exact Bool.false_ne_true
  | word sound fault => cases fault <;> exact Bool.false_ne_true

theorem not_isInternal_of_parse (h : isMeaningful line) (herror : parse line = .error cause) :
    ¬ cause.isInternal := by
  rw [parse, bind_eq_error_iff, Token.scan_eq_error_iff] at herror
  obtain ⟨-, rfl⟩ | ⟨tokens, hscan, herror⟩ := herror
  · exact Bool.false_ne_true
  · exact ((ofTokens_eq_error_iff (ne_nil_of_scan h hscan)).1 herror).not_isInternal

end Line

variable {path text : String} {es : List Error}

theorem not_isInternal_of_resolve {ds : List Definition} (h : resolve path ds = .error es) :
    ∀ e ∈ es, ¬ e.cause.isInternal := by
  have single {cause : Cause} (hcause : ¬ cause.isInternal) :
      ∀ e ∈ [Error.mk ⟨path, 0⟩ cause], ¬ e.cause.isInternal :=
    List.forall_mem_singleton.2 hcause
  by_cases hundefined : undefinedNames path ds = []
  · cases hstart : start? ds with
    | none =>
      rw [resolve_of_start?_eq_none hundefined hstart, Except.error.injEq] at h
      exact h ▸ single Bool.false_ne_true
    | some start =>
      cases hbuild : (draft ds start).build with
      | ok g =>
        rw [resolve_of_build_eq_ok hundefined hstart hbuild] at h
        cases h
      | error e =>
        rw [resolve_of_build_eq_error hundefined hstart hbuild, Except.error.injEq] at h
        exact h ▸ single Bool.false_ne_true
  · rw [resolve_of_undefined hundefined, Except.error.injEq, undefinedNames_eq] at h
    subst h
    intro e he
    obtain ⟨u, -, rfl⟩ := List.mem_map.1 he
    exact Bool.false_ne_true

theorem not_isInternal_of_failures {e : Error} (he : e ∈ failures (readText path text)) :
    ¬ e.cause.isInternal := by
  rw [mem_failures_iff, readText, error_mem_readLines_iff] at he
  obtain ⟨-, line, -, hkept, hparse⟩ := he
  rw [← Line.isMeaningful_eq_false_iff, Bool.not_eq_false] at hkept
  exact Line.not_isInternal_of_parse hkept hparse

/-- Whatever the text, loading it never reports a fault of the loading itself: a line that is kept
has a token unless it cannot be scanned, and no alternative that is read has a bar in it. -/
theorem ofText_blameless (path text : String) : Blameless path text where
  reported es h e he := by
    by_cases hfailures : failures (readText path text) = []
    · rw [ofText_of_successes hfailures] at h
      exact not_isInternal_of_resolve h e he
    · rw [ofText_of_failures hfailures, Except.error.injEq] at h
      exact not_isInternal_of_failures (h ▸ he)
  scanned number line _ hkept := by
    cases hscan : Token.scan line with
    | error cause => exact .inl ⟨cause, rfl⟩
    | ok tokens =>
      obtain ⟨t, ts, rfl⟩ := List.exists_cons_of_ne_nil (Line.ne_nil_of_scan hkept hscan)
      exact .inr ⟨t, ts, rfl⟩
  split _ _ _ _ _ _ _ _ := Text.not_mem_of_mem_pieces

/-- The first two lines are skipped, though their blanks are not spaces. The bar in quotes splits
nothing, and the one behind it leaves an alternative that is empty. -/
theorem ofText_blameless_blanks :
    let text := "\u3000; S\n\u0085\u00a0\nS = \"a|\" | \n| = \"b\n\u2003a | b\n"
    ofText "g" text = .error [⟨⟨"g", 3⟩, .emptyAlternative⟩, ⟨⟨"g", 4⟩, .unmatchedQuote⟩,
      ⟨⟨"g", 5⟩, .missingSeparator⟩] ∧ Blameless "g" text := by
  intro text
  have hfailures : failures (readText "g" text) = [⟨⟨"g", 3⟩, .emptyAlternative⟩,
      ⟨⟨"g", 4⟩, .unmatchedQuote⟩, ⟨⟨"g", 5⟩, .missingSeparator⟩] := by decide +kernel
  refine ⟨?_, ofText_blameless "g" text⟩
  rw [ofText_of_failures (by simp [hfailures]), hfailures]

end Readings.GrammarFile
