import Readings.Proofs.Forest.Reading
import Readings.Proofs.GrammarFile.Load

/-!
The words of a literal. A quoted word is a category of its own name with itself as a word, but the
name is an ordinary one: a lexicon line may give the category more words, and then the literal
stands for these as well.
-/

namespace Readings.GrammarFile

/-- Some rule of the text quotes the word. -/
def Quotes (text : List Char) (word : String) : Prop :=
  ∃ number head alternatives alternative, Reads text number (.ok (.rule head alternatives)) ∧
    alternative ∈ alternatives ∧ .literal word ∈ alternative

/-- Some lexicon line of the text gives the category this word. -/
def Lists (text : List Char) (category word : String) : Prop :=
  ∃ number ws, Reads text number (.ok (.words category ws)) ∧ word ∈ ws

theorem mem_words_draft_iff {text : List Char} {ds : List Definition} (h : Contains text ds)
    {start token category : String} : ⟨token, category⟩ ∈ (draft ds start).words ↔
      (category = token ∧ Quotes text token) ∨ Lists text category token := by
  rw [draft, List.mem_flatMap]
  simp only [Line.mem_entries_iff, h.mem_iff]
  constructor
  · intro h
    obtain ⟨d, hread, ⟨head, alternatives, alternative, hline, hmem, hitem, he⟩ |
      ⟨ws, hline, hws⟩⟩ := h
    · rw [hline] at hread
      exact .inl ⟨he, d.number, head, alternatives, alternative, hread, hmem, hitem⟩
    · rw [hline] at hread
      exact .inr ⟨d.number, ws, hread, hws⟩
  · intro h
    obtain ⟨he, number, head, alternatives, alternative, hread, hmem, hitem⟩ |
      ⟨number, ws, hread, hws⟩ := h
    · exact ⟨⟨_, number⟩, hread, .inl ⟨_, _, alternative, rfl, hmem, hitem, he⟩⟩
    · exact ⟨⟨_, number⟩, hread, .inr ⟨ws, rfl, hws⟩⟩

/-- A literal is a category whose words are the literal and what lexicon lines list for its name. It
stands only for itself if and only if they list nothing else, and a leaf never carries more. -/
theorem tokensOf_literal {path text : String} {loaded : Loaded} (h : ofText path text = .ok loaded)
    {w : String} (hw : Quotes text.toList w) :
    (∀ token, token ∈ loaded.grammar.lexicon.tokensOf w ↔
      token = w ∨ Lists text.toList w token) ∧
    (loaded.grammar.lexicon.tokensOf w = [w] ↔ ∀ token, Lists text.toList w token → token = w) ∧
    ∀ start tokens b f, enumerate loaded.grammar start tokens b = .ok f →
      ∀ root, ∀ t ∈ f.readings root, ∀ token position, .leaf w token position ∈ t.leaves →
        token = w ∨ Lists text.toList w token := by
  obtain ⟨ds, start, hds, hbuild⟩ := exists_draft_of_ofText h
  have hwords := (Grammar.Draft.represents_of_build hbuild).words
  have hmem (token : String) : token ∈ loaded.grammar.lexicon.tokensOf w ↔
      token = w ∨ Lists text.toList w token := by
    rw [hwords.mem_tokensOf_iff, mem_words_draft_iff hds]
    refine or_congr_left ⟨fun hq ↦ hq.1.symm, ?_⟩
    intro hq
    subst hq
    exact ⟨rfl, hw⟩
  refine ⟨hmem, ⟨fun hall token hlists ↦ ?_, fun hall ↦ ?_⟩, ?_⟩
  · have htoken := (hmem token).2 (.inr hlists)
    rw [hall] at htoken
    exact List.mem_singleton.1 htoken
  · have hperm : (loaded.grammar.lexicon.tokensOf w).Perm [w] := by
      refine (List.perm_ext_iff_of_nodup (hwords.tokensOf_nodup w) (List.nodup_singleton w)).2 ?_
      intro token
      rw [hmem, List.mem_singleton]
      exact or_iff_left_of_imp (hall token)
    exact List.perm_singleton.1 hperm
  · intro start tokens b f hf root t ht token position hleaf
    rw [eq_forest_of_enumerate hf] at ht
    have hg := Grammar.Built.wellFormed ⟨_, hbuild⟩
    have hparses := Forest.parses_of_mem_readings hg ht
    exact (hmem token).1 ((hg.mem_tokensOf_iff token w).2 (hparses.entry_of_mem_leaves hleaf))

/-- A lexicon line gives the category of the quoted word another word. -/
def clashing : String := "S = NP \"and\" NP\nNP : x\nand : foo\n"

def clashingGrammar : Grammar where
  start := "S"
  symbols := [⟨0, "S", .nonterminal⟩, ⟨1, "NP", .terminal⟩, ⟨2, "and", .terminal⟩]
  names := .ofList [("S", Symbol.mk 0 "S" .nonterminal), ("NP", Symbol.mk 1 "NP" .terminal),
    ("and", Symbol.mk 2 "and" .terminal)]
  rules := [⟨⟨"S", ["NP", "and", "NP"]⟩, 0⟩]
  byLhs := .ofList [(0, [0])]
  words.byToken := .ofList [("and", [Symbol.mk 2 "and" .terminal]),
    ("x", [Symbol.mk 1 "NP" .terminal]), ("foo", [Symbol.mk 2 "and" .terminal])]
  words.byTerminal := .ofList [(2, ["and", "foo"]), (1, ["x"])]

def clashingDefinitions : List Definition :=
  [⟨.rule "S" [[.category "NP", .literal "and", .category "NP"]], 1⟩, ⟨.words "NP" ["x"], 2⟩,
    ⟨.words "and" ["foo"], 3⟩]

theorem ofText_clashing :
    ofText "clash" clashing = .ok ⟨clashingGrammar, [(⟨"clash", 3⟩, "and")]⟩ := by
  have hread : readText "clash" clashing = clashingDefinitions.map .ok := by decide +kernel
  have hdraft : draft clashingDefinitions "S" = ⟨"S", [⟨"S", ["NP", "and", "NP"]⟩],
      [⟨"and", "and"⟩, ⟨"x", "NP"⟩, ⟨"foo", "and"⟩]⟩ := by decide
  exact ofText_of_build hread (by decide) (by decide) hdraft rfl (by decide)

theorem quotes_clashing : Quotes clashing.toList "and" := by
  have hline : Text.IsLine clashing.toList 1 "S = NP \"and\" NP".toList :=
    Text.isLine_iff.2 (by decide)
  have hread : ¬ Line.Skipped "S = NP \"and\" NP".toList := by
    rw [← Line.isMeaningful_eq_false_iff]
    decide
  have hparse : Line.parse "S = NP \"and\" NP".toList =
      .ok (.rule "S" [[.category "NP", .literal "and", .category "NP"]]) := by
    decide +kernel
  exact ⟨1, "S", _, _, ⟨_, hline, hread, hparse⟩, List.mem_cons_self, by decide⟩

theorem tokensOf_literal_clashing :
    let grammar := clashingGrammar
    ofText "clash" clashing = .ok ⟨grammar, [(⟨"clash", 3⟩, "and")]⟩ ∧
      Quotes clashing.toList "and" ∧
      (∀ token, token ∈ grammar.lexicon.tokensOf "and" ↔
        token = "and" ∨ Lists clashing.toList "and" token) ∧
      (grammar.lexicon.tokensOf "and" = ["and"] ↔
        ∀ token, Lists clashing.toList "and" token → token = "and") ∧
      ∀ start tokens b f, enumerate grammar start tokens b = .ok f →
        ∀ root, ∀ t ∈ f.readings root, ∀ token position, .leaf "and" token position ∈ t.leaves →
          token = "and" ∨ Lists clashing.toList "and" token :=
  ⟨ofText_clashing, quotes_clashing, tokensOf_literal ofText_clashing quotes_clashing⟩

def clashingTree : Tree :=
  .node ⟨⟨"S", ["NP", "and", "NP"]⟩, 0⟩ ⟨0, 3⟩
    [.leaf "NP" "x" 0, .leaf "and" "foo" 1, .leaf "NP" "x" 2]

theorem clashingTree_parses : clashingTree.Parses clashingGrammar ["x", "foo", "x"] := by
  have hleaves : ∀ t ∈ [Tree.leaf "NP" "x" 0, .leaf "and" "foo" 1, .leaf "NP" "x" 2],
      t.Parses clashingGrammar ["x", "foo", "x"] := by
    simp only [List.forall_mem_cons]
    exact ⟨.leaf rfl (by decide), .leaf rfl (by decide), .leaf rfl (by decide), nofun⟩
  refine .node (by decide) rfl ?_ hleaves
  exact .cons (by decide) (.cons (by decide) (.cons (by decide) .nil))

/-- In this sentence the literal stands for another word. -/
theorem literal_reads_other_word :
    ofText "clash" clashing = .ok ⟨clashingGrammar, [(⟨"clash", 3⟩, "and")]⟩ ∧
      Quotes clashing.toList "and" ∧
      clashingGrammar.lexicon.tokensOf "and" = ["and", "foo"] ∧
      ∃ f, enumerate clashingGrammar "S" ["x", "foo", "x"] .unlimited = .ok f ∧
        ∃ t ∈ f.readings "S", .leaf "and" "foo" 1 ∈ t.leaves := by
  have hstart : clashingGrammar.isNonterminal "S" := by decide
  have hg : clashingGrammar.WellFormed := by
    obtain ⟨ds, start, -, hbuild⟩ := exists_draft_of_ofText ofText_clashing
    exact Grammar.Built.wellFormed ⟨_, hbuild⟩
  have hsimple : clashingTree.Simple := by
    rw [Tree.Simple]
    decide
  have htree : clashingTree ∈ (clashingGrammar.forest ["x", "foo", "x"]).readings "S" :=
    (Forest.mem_readings_iff hg hstart).2 ⟨⟨clashingTree_parses, hsimple⟩, rfl⟩
  exact ⟨ofText_clashing, quotes_clashing, by decide, _, enumerate_unlimited hstart, _, htree,
    by decide⟩

end Readings.GrammarFile
