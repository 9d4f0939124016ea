import Readings.Proofs.GrammarFile.Token
import Readings.Proofs.Text

/-!
Lines are read exactly: what is accepted has the form of a line, and is read as what it says; what
is refused is refused for its leftmost fault.
-/

namespace Readings.GrammarFile.Line

section Rule

theorem item_eq_ok_iff {t : Token} {i : Item} : item t = .ok i ↔ True ∧ i.token = t := by
  cases t <;> cases i <;> simp [item, Item.token, eq_comm]

theorem mapM_item_eq_ok_iff {tokens : List Token} {items : List Item} :
    tokens.mapM item = .ok items ↔ items.map Item.token = tokens := by
  rw [mapM_eq_ok_iff_map_eq fun _ _ ↦ item_eq_ok_iff]
  exact and_iff_right fun _ _ ↦ trivial

theorem item_eq_error_iff {t : Token} {cause : Cause} :
    item t = .error cause ↔ (t = .equals ∨ t = .colon) ∧ cause = .unexpectedSeparator ∨
      t = .bar ∧ cause = .unsplitAlternatives := by
  cases t <;> simp [item, eq_comm]

theorem alternative_of_ne_nil {tokens : List Token} (h : tokens ≠ []) :
    alternative tokens = tokens.mapM item := by
  rw [alternative, if_neg (by simpa using h)]

theorem alternative_eq_ok_iff {tokens : List Token} {items : List Item} :
    alternative tokens = .ok items ↔ items ≠ [] ∧ items.map Item.token = tokens := by
  by_cases h : tokens = []
  · subst h
    exact iff_of_false nofun fun h ↦ h.1 (List.map_eq_nil_iff.1 h.2)
  · rw [alternative_of_ne_nil h, mapM_item_eq_ok_iff]
    refine (and_iff_right_of_imp fun hmap hnil ↦ h ?_).symm
    rw [← hmap, hnil, List.map_nil]

theorem alternative_eq_error_iff {tokens : List Token} (hbar : .bar ∉ tokens) {cause : Cause} :
    alternative tokens = .error cause ↔ AlternativeFault tokens cause := by
  by_cases h : tokens = []
  · subst h
    constructor
    · intro h
      cases h
      exact .empty
    · intro h
      cases h with
      | empty => rfl
      | separator mem => simp at mem
  rw [alternative_of_ne_nil h]
  constructor
  · intro herror
    obtain ⟨before, t, after, rfl, -, ht⟩ := mapM_eq_error_iff.1 herror
    obtain ⟨hseparator, rfl⟩ | ⟨rfl, -⟩ := item_eq_error_iff.1 ht
    · refine .separator ?_
      obtain rfl | rfl := hseparator
      · exact .inl (by simp)
      · exact .inr (by simp)
    · simp at hbar
  · intro hfault
    cases hfault with
    | empty => exact absurd rfl h
    | separator mem =>
      cases hmap : tokens.mapM item with
      | ok items =>
        rw [← mapM_item_eq_ok_iff.1 hmap] at mem
        simp only [List.mem_map] at mem
        obtain ⟨i, -, hi⟩ | ⟨i, -, hi⟩ := mem <;> cases i <;> cases hi
      | error cause =>
        obtain ⟨before, t, after, rfl, -, ht⟩ := mapM_eq_error_iff.1 hmap
        obtain ⟨-, rfl⟩ | ⟨rfl, -⟩ := item_eq_error_iff.1 ht
        · rfl
        · simp at hbar

theorem alternatives_eq_ok_iff {tokens : List Token} {alternatives : List (List Item)} :
    (Text.pieces .bar tokens).mapM alternative = .ok alternatives ↔ alternatives ≠ [] ∧
      (∀ a ∈ alternatives, a ≠ []) ∧
        [Token.bar].intercalate (alternatives.map (·.map Item.token)) = tokens := by
  rw [mapM_eq_ok_iff_map_eq fun _ _ ↦ alternative_eq_ok_iff, eq_comm, Text.pieces_eq_iff,
    and_left_comm, ne_eq, List.map_eq_nil_iff, ne_eq]
  refine and_congr_right fun _ ↦ and_congr_right fun _ ↦ and_iff_right fun p hp hbar ↦ ?_
  obtain ⟨a, -, rfl⟩ := List.mem_map.1 hp
  obtain ⟨i, -, hi⟩ := List.mem_map.1 hbar
  cases i <;> cases hi

theorem alternatives_eq_error_iff {tokens : List Token} {cause : Cause} :
    (Text.pieces .bar tokens).mapM alternative = .error cause ↔
      ∃ before a after, (∀ b ∈ before ++ a :: after, .bar ∉ b) ∧
        [Token.bar].intercalate (before ++ a :: after) = tokens ∧
          (∀ b ∈ before, ∀ c, ¬ AlternativeFault b c) ∧ AlternativeFault a cause := by
  rw [mapM_eq_error_iff]
  refine exists₃_congr fun before a after ↦ ?_
  have hne : before ++ a :: after ≠ [] := by simp
  rw [Text.pieces_eq_iff, and_iff_right hne, and_assoc]
  refine and_congr_right fun hbar ↦ and_congr_right fun _ ↦ and_congr ?_ ?_
  · refine forall₂_congr fun b hb ↦ ?_
    rw [exists_eq_ok_iff]
    refine forall_congr' fun c ↦ not_congr ?_
    exact alternative_eq_error_iff (hbar b (List.mem_append_left _ hb))
  · exact alternative_eq_error_iff (hbar a (by simp))

end Rule

section Words

theorem word_eq_ok_iff {t : Token} {w : String} : word t = .ok w ↔ t.word? = some w := by
  cases t <;> simp [word, Token.word?]

theorem word_eq_error_iff {t : Token} {cause : Cause} :
    word t = .error cause ↔ WordFault t cause := by
  constructor
  · intro h
    cases t with
    | equals => cases h; exact .equals
    | colon => cases h; exact .colon
    | bar => cases h; exact .bar
    | name | quoted => cases h
  · intro h
    cases h <;> rfl

theorem wordList_of_ne_nil {tokens : List Token} (h : tokens ≠ []) :
    wordList tokens = tokens.mapM word := by
  rw [wordList, if_neg (by simpa using h)]

theorem wordList_eq_ok_iff {tokens : List Token} {ws : List String} :
    wordList tokens = .ok ws ↔ tokens ≠ [] ∧ tokens.map Token.word? = ws.map some := by
  by_cases h : tokens = []
  · subst h
    exact iff_of_false nofun fun h ↦ h.1 rfl
  · rw [wordList_of_ne_nil h, and_iff_right h, mapM_eq_ok_iff, ← List.forall₂_eq_eq_eq,
      List.forall₂_map_left_iff, List.forall₂_map_right_iff]
    simp only [word_eq_ok_iff]

theorem wordList_eq_error_iff {tokens : List Token} {cause : Cause} :
    wordList tokens = .error cause ↔ (tokens = [] ∧ cause = .emptyAlternative) ∨
      ∃ before t after, tokens = before ++ t :: after ∧
        (∀ b ∈ before, ∀ c, ¬ WordFault b c) ∧ WordFault t cause := by
  by_cases h : tokens = []
  · subst h
    simp [wordList, eq_comm]
  · rw [wordList_of_ne_nil h, mapM_eq_error_iff, or_iff_right fun hnil ↦ h hnil.1]
    simp only [exists_eq_ok_iff, ne_eq, word_eq_error_iff]

end Words

theorem ofTokens_eq_ok_iff {tokens : List Token} {l : Line} :
    ofTokens tokens = .ok l ↔ Form tokens l := by
  constructor
  · fun_cases ofTokens tokens with
    | case1 | case4 | case5 => exact nofun
    | case2 head rest =>
      intro h
      obtain ⟨alternatives, halternatives, rfl⟩ := map_eq_ok_iff.1 h
      obtain ⟨hsome, hnonempty, rfl⟩ := alternatives_eq_ok_iff.1 halternatives
      exact .rule hsome hnonempty
    | case3 category rest =>
      intro h
      obtain ⟨ws, hws, rfl⟩ := map_eq_ok_iff.1 h
      obtain ⟨hnonempty, heach⟩ := wordList_eq_ok_iff.1 hws
      exact .words hnonempty heach
  · intro h
    cases h with
    | rule some nonempty =>
      exact map_eq_ok_iff.2 ⟨_, alternatives_eq_ok_iff.2 ⟨some, nonempty, rfl⟩, rfl⟩
    | words nonempty each => exact map_eq_ok_iff.2 ⟨_, wordList_eq_ok_iff.2 ⟨nonempty, each⟩, rfl⟩

theorem ofTokens_eq_error_iff {tokens : List Token} (hne : tokens ≠ []) {cause : Cause} :
    ofTokens tokens = .error cause ↔ Fault tokens cause := by
  constructor
  · fun_cases ofTokens tokens with
    | case1 => exact absurd rfl hne
    | case2 head rest =>
      intro h
      obtain ⟨before, a, after, hsplit, rfl, hsound, hfault⟩ :=
        alternatives_eq_error_iff.1 (map_eq_error_iff.1 h)
      exact .alternative hsplit hsound hfault
    | case3 category rest =>
      intro h
      obtain ⟨rfl, rfl⟩ | ⟨before, t, after, rfl, hsound, hfault⟩ :=
        wordList_eq_error_iff.1 (map_eq_error_iff.1 h)
      · exact .noWords
      · exact .word hsound hfault
    | case4 head rest hequals hcolon =>
      intro h
      cases h
      apply Fault.separator
      · intro hhead
        obtain ⟨tail, htail⟩ := List.head?_eq_some_iff.1 hhead
        exact hequals tail htail
      · intro hhead
        obtain ⟨tail, htail⟩ := List.head?_eq_some_iff.1 hhead
        exact hcolon tail htail
    | case5 _ _ _ _ hname =>
      intro h
      cases h
      obtain ⟨t, rest, rfl⟩ := List.exists_cons_of_ne_nil hne
      exact .category fun text ht ↦ hname text rest (ht ▸ rfl)
  · intro h
    cases h with
    | @category t rest other =>
      cases t with
      | name text => exact absurd rfl (other text)
      | equals | colon | bar | quoted => rfl
    | @separator head rest equals colon =>
      cases rest with
      | nil => rfl
      | cons t rest =>
        cases t with
        | equals => exact absurd rfl equals
        | colon => exact absurd rfl colon
        | bar | name | quoted => rfl
    | alternative split sound fault =>
      exact map_eq_error_iff.2 (alternatives_eq_error_iff.2 ⟨_, _, _, split, rfl, sound, fault⟩)
    | noWords => rfl
    | word sound fault =>
      exact map_eq_error_iff.2 (wordList_eq_error_iff.2 (.inr ⟨_, _, _, rfl, sound, fault⟩))

/-- A line that is not blank is accepted if and only if its quotes are even in number and the tokens
that it spells have the form of a line, and is then read as what it says. Otherwise it is refused
for a quote that is left over or, if there is none, for the leftmost fault of its tokens. -/
theorem parse_exact (line : List Char) (hline : ∃ c ∈ line, ¬ Text.isBlank c) :
    (Even (line.count '"') ↔ ∃! tokens, Token.Spells line tokens) ∧
    (∀ l, parse line = .ok l ↔
      Even (line.count '"') ∧ ∃ tokens, Token.Spells line tokens ∧ Form tokens l) ∧
    ∀ cause, parse line = .error cause ↔
      (Odd (line.count '"') ∧ cause = .unmatchedQuote) ∨
        (Even (line.count '"') ∧ ∃ tokens, Token.Spells line tokens ∧ Fault tokens cause) := by
  refine ⟨Token.even_count_iff, fun l ↦ ?_, fun cause ↦ ?_⟩
  · rw [parse, bind_eq_ok_iff]
    simp only [Token.scan_eq_ok_iff, ofTokens_eq_ok_iff]
    exact (and_iff_right_of_imp fun ⟨_, hspells, _⟩ ↦ hspells.even_count).symm
  · rw [parse, bind_eq_error_iff, Token.scan_eq_error_iff]
    simp only [Token.scan_eq_ok_iff]
    refine or_congr_right ?_
    constructor
    · intro h
      obtain ⟨tokens, hspells, herror⟩ := h
      have hfault := (ofTokens_eq_error_iff (hspells.ne_nil hline)).1 herror
      exact ⟨hspells.even_count, tokens, hspells, hfault⟩
    · intro h
      obtain ⟨-, tokens, hspells, hfault⟩ := h
      exact ⟨tokens, hspells, (ofTokens_eq_error_iff (hspells.ne_nil hline)).2 hfault⟩

theorem parse_exact_two_faults :
    let line := "S = | \"a\" =".toList
    (∃ c ∈ line, ¬ Text.isBlank c) ∧
      (Even (line.count '"') ↔ ∃! tokens, Token.Spells line tokens) ∧
      (∀ l, parse line = .ok l ↔
        Even (line.count '"') ∧ ∃ tokens, Token.Spells line tokens ∧ Form tokens l) ∧
      ∀ cause, parse line = .error cause ↔
        (Odd (line.count '"') ∧ cause = .unmatchedQuote) ∨
          (Even (line.count '"') ∧ ∃ tokens, Token.Spells line tokens ∧ Fault tokens cause) :=
  ⟨⟨'S', by decide, by decide⟩, parse_exact _ ⟨'S', by decide, by decide⟩⟩

end Readings.GrammarFile.Line
