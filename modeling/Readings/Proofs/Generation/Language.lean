import Readings.Proofs.Forest.Readable
import Readings.Proofs.Generation.Depth

/-!
The sentences that can be generated are those that have readings. Whatever is chosen, the tree that
is built derives its tokens; and every derivation is followed by some choices, once the shortest way
is not forced before the derivation ends.
-/

namespace Readings

open Grammar Choosing

namespace Generator

variable {g : Generator}

section Sound

variable {σ : Type} {c : Chooser σ} {category : String} {position : Nat} {s s' : σ} {t : Tree}

theorem gives_of_guarded {build : Nat → Choosing σ Tree}
    (h : (g.guarded category build position).Gives s t s') : (build position).Gives s t s' := by
  rw [guarded] at h
  split at h
  · exact h
  · exact absurd h not_gives_throw

/-- Every tree that may come out derives its tokens from its category. -/
def Sound (g : Grammar) (build : String → Nat → Choosing σ Tree) : Prop :=
  ∀ category position s t s', (build category position).Gives s t s' →
    g.Derives [category] t.tokens

theorem derives_of_sequence {build : String → Nat → Choosing σ Tree}
    (hbuild : Sound g.grammar build) {cs : List String} {ts : List Tree}
    (h : (sequence build cs position).Gives s ts s') :
    g.grammar.Derives cs (ts.map Tree.tokens).flatten := by
  induction cs generalizing position s ts with
  | nil =>
    obtain ⟨rfl, -⟩ := gives_pure_iff.1 h
    exact .nil
  | cons category cs ih =>
    obtain ⟨t, _, ht, h⟩ := gives_bind_iff.1 h
    obtain ⟨rest, _, hrest, h⟩ := gives_bind_iff.1 h
    obtain ⟨rfl, rfl⟩ := gives_pure_iff.1 h
    exact (hbuild _ _ _ _ _ ht).append (ih hrest)

theorem derives_of_word (hg : g.grammar.WellFormed) (h : (g.word c category position).Gives s t s') :
    g.grammar.Derives [category] t.tokens := by
  obtain ⟨token, _, htoken, h⟩ := gives_bind_iff.1 h
  obtain ⟨rfl, -⟩ := gives_pure_iff.1 h
  exact .token ((hg.mem_tokensOf_iff _ _).1 (mem_of_oneOf htoken)) .nil

theorem derives_of_expand (hg : g.grammar.WellFormed) {build : String → Nat → Choosing σ Tree}
    (hbuild : Sound g.grammar build) {rules : List Rule}
    (hrules : ∀ rule ∈ rules, rule ∈ g.grammar.alternatives category)
    (h : (expand c category rules build position).Gives s t s') :
    g.grammar.Derives [category] t.tokens := by
  obtain ⟨rule, _, hrule, h⟩ := gives_bind_iff.1 h
  obtain ⟨ts, _, hts, h⟩ := gives_bind_iff.1 h
  obtain ⟨rfl, -⟩ := gives_pure_iff.1 h
  have hrule := hrules rule (mem_of_oneOf hrule)
  rw [hg.alternatives_eq, List.mem_filter] at hrule
  obtain ⟨mem, hlhs⟩ := hrule
  have hd := Derives.rule mem (derives_of_sequence hbuild hts) .nil
  rw [beq_iff_eq.1 hlhs, List.append_nil] at hd
  rwa [Tree.tokens, Tree.fold_node]

theorem sound_shortest (hg : g.grammar.WellFormed) (height : Nat) :
    Sound g.grammar (g.shortest c height) := by
  induction height with
  | zero =>
    intro category position s t s' h
    exact derives_of_word hg (gives_of_guarded h)
  | succ height ih =>
    intro category position s t s' h
    rw [shortest] at h
    have h := gives_of_guarded h
    split at h
    · exact derives_of_word hg h
    · exact derives_of_expand hg ih
        (fun rule hr ↦ List.mem_of_mem_filter (List.mem_of_mem_filter hr)) h

theorem sound_spread (hg : g.grammar.WellFormed) (levels : Nat) :
    Sound g.grammar (g.spread c levels) := by
  induction levels with
  | zero =>
    intro category position s t s' h
    exact sound_shortest hg _ _ _ _ _ _ h
  | succ levels ih =>
    intro category position s t s' h
    rw [spread] at h
    have h := gives_of_guarded h
    split at h
    · exact derives_of_word hg h
    · exact derives_of_expand hg ih (fun rule hr ↦ List.mem_of_mem_filter hr) h

theorem derives_of_sentence (hg : g.grammar.WellFormed) {start : String} {tokens : List String}
    (h : (g.sentence c start).Gives s tokens s') : g.grammar.Derives [start] tokens := by
  rw [sentence, map_eq_pure_bind] at h
  obtain ⟨t, _, ht, h⟩ := gives_bind_iff.1 h
  obtain ⟨rfl, -⟩ := gives_pure_iff.1 h
  rw [tree] at ht
  split at ht
  · exact absurd ht not_gives_throw
  · exact sound_spread hg _ _ _ _ _ _ ht

end Sound

section Complete

variable {g : Grammar} {depth : Nat}

theorem mem_productive (hg : g.WellFormed) {rule : Rule} {ts : List String} (mem : rule ∈ g.rules)
    (hd : g.Derives rule.rhs ts) : rule ∈ (ofGrammar g depth).productive rule.lhs := by
  have hbelow := Heights.isSome_height?_of_derives hg hd
  refine List.mem_filter.2 ⟨?_, Heights.isSome_ofRule?_iff.2 hbelow⟩
  rw [ofGrammar, hg.alternatives_eq]
  exact List.mem_filter.2 ⟨mem, beq_self_eq_true _⟩

/-- With enough levels to spread over, every derivation can be followed. -/
theorem exists_reaches (hg : g.WellFormed) {cs ts : List String} (hd : g.Derives cs ts) :
    ∃ levels, ∀ n, levels < n → ∀ depth position, ∃ trees,
      (sequence ((ofGrammar g depth).spread .scripted n) cs position).Reaches trees ∧
        (trees.map Tree.tokens).flatten = ts := by
  induction hd with
  | nil => exact ⟨0, fun n _ depth position ↦ ⟨[], reaches_pure [], rfl⟩⟩
  | @token token category rest ts entry _ ih =>
    obtain ⟨levels, htail⟩ := ih
    refine ⟨levels, fun n hn depth position ↦ ?_⟩
    obtain ⟨trees, htrees, rfl⟩ := htail n hn depth (Span.ofWidth position 1).stop
    have hleaf : ((ofGrammar g depth).spread .scripted n category position).Reaches
        (.leaf category token position) := by
      have hterminal : g.isTerminal category := (hg.isTerminal_iff category).2 ⟨token, entry⟩
      rw [spread_of_isTerminal hg hterminal]
      exact (reaches_oneOf ((hg.mem_tokensOf_iff _ _).2 entry)).bind (reaches_pure _)
    exact ⟨_, hleaf.bind (htrees.bind (reaches_pure _)), rfl⟩
  | @rule rule rest first ts mem hhead _ ihead itail =>
    obtain ⟨levels, hfirst⟩ := ihead
    obtain ⟨levels', htail⟩ := itail
    refine ⟨max (levels + 1) levels', fun n hn depth position ↦ ?_⟩
    obtain ⟨n, rfl⟩ := Nat.exists_eq_succ_of_ne_zero (Nat.ne_zero_of_lt hn)
    obtain ⟨children, hchildren, rfl⟩ := hfirst n (by omega) depth position
    have hnode : ∃ span, ((ofGrammar g depth).spread .scripted (n + 1) rule.lhs position).Reaches
        (.node rule span children) := by
      have hnonterminal : ¬ g.isTerminal rule.lhs :=
        not_isTerminal_of_isNonterminal (hg.lhs_isNonterminal rule mem)
      rw [spread_of_not_isTerminal hg hnonterminal]
      exact ⟨_, (reaches_oneOf (mem_productive hg mem hhead)).bind
        (hchildren.bind (reaches_pure _))⟩
    obtain ⟨span, hnode⟩ := hnode
    obtain ⟨trees, htrees, rfl⟩ := htail (n + 1) (by omega) depth span.stop
    refine ⟨_, hnode.bind (htrees.bind (reaches_pure _)), ?_⟩
    rw [List.map_cons, List.flatten_cons, Tree.tokens, Tree.fold_node]

theorem exists_sentence_reaches (hg : g.WellFormed) {start : String} (hs : g.isNonterminal start)
    {tokens : List String} (hd : g.Derives [start] tokens) :
    ∃ depth, ((ofGrammar g depth).sentence .scripted start).Reaches tokens := by
  obtain ⟨levels, hlevels⟩ := exists_reaches hg hd
  obtain ⟨trees, ⟨choices, hchoices⟩, rfl⟩ :=
    hlevels (levels + 1) levels.lt_succ_self (levels + 1) 0
  refine ⟨levels + 1, choices, fun rest ↦ ?_⟩
  obtain ⟨t, last, ht, h⟩ := gives_bind_iff.1 (hchoices rest)
  obtain ⟨_, _, hnil, h⟩ := gives_bind_iff.1 h
  obtain ⟨rfl, rfl⟩ := gives_pure_iff.1 hnil
  obtain ⟨rfl, hlast⟩ := gives_pure_iff.1 h
  obtain ⟨symbol, hsymbol, -⟩ := (Option.any_eq_true _ _).1 hs
  have htree : (ofGrammar g (levels + 1)).tree .scripted start =
      (ofGrammar g (levels + 1)).spread .scripted (levels + 1) start 0 := by
    simp only [tree, ofGrammar, hsymbol]
  rw [sentence, map_eq_pure_bind, htree]
  exact gives_bind_iff.2 ⟨t, last, ht, gives_pure_iff.2 ⟨(List.append_nil _).symm, hlast⟩⟩

end Complete

end Generator

/-- A sentence can be generated from a nonterminal, by some choices at some depth, if and only if
it has readings. No other way of choosing gives more sentences, at whatever depth. -/
theorem generates_iff_readable (g : Grammar) (hg : g.Built) (start : String)
    (hs : g.isNonterminal start) (tokens : List String) :
    ∃ f, enumerate g start tokens .unlimited = .ok f ∧
      ((∃ depth choices rest,
        ((Generator.ofGrammar g depth).sentence .scripted start).Gives choices tokens rest) ↔
          0 < f.readingCount start) ∧
      ∀ (σ : Type) (c : Chooser σ) (depth : Nat) (s s' : σ),
        ((Generator.ofGrammar g depth).sentence c start).Gives s tokens s' →
          0 < f.readingCount start := by
  have hwf := hg.wellFormed
  have hderives : g.Derives [start] tokens ↔ 0 < (g.forest tokens).readingCount start := by
    rw [Forest.readingCount_pos_iff (Forest.shareable_forest hwf tokens),
      Forest.readings_ne_nil_iff hwf hs, Forest.isSome_root?_iff_derives hwf hs]
  refine ⟨g.forest tokens, enumerate_unlimited hs, ⟨?_, ?_⟩, ?_⟩
  · rintro ⟨depth, choices, rest, h⟩
    exact hderives.1 (Generator.derives_of_sentence hwf h)
  · intro h
    obtain ⟨depth, choices, hchoices⟩ := Generator.exists_sentence_reaches hwf hs (hderives.2 h)
    exact ⟨depth, choices ++ [], [], hchoices []⟩
  · intro σ c depth s s' h
    exact hderives.1 (Generator.derives_of_sentence hwf h)

theorem generates_iff_readable_looping :
    looping.Built ∧ looping.isNonterminal "S" ∧
      ∃ f, enumerate looping "S" ["x", "x"] .unlimited = .ok f ∧
        ((∃ depth choices rest,
          ((Generator.ofGrammar looping depth).sentence .scripted "S").Gives choices ["x", "x"]
            rest) ↔ 0 < f.readingCount "S") ∧
        ∀ (σ : Type) (c : Chooser σ) (depth : Nat) (s s' : σ),
          ((Generator.ofGrammar looping depth).sentence c "S").Gives s ["x", "x"] s' →
            0 < f.readingCount "S" :=
  ⟨looping_built, by decide, generates_iff_readable looping looping_built "S" (by decide) ["x", "x"]⟩

end Readings
