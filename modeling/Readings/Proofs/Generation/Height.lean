import Mathlib.Order.Lattice.Nat
import Readings.Generation.Height
import Readings.Grammar.Derivation
import Readings.Proofs.Grammar.Built
import Readings.Proofs.Tree.Height

/-!
Heights and derivations. While heights are being settled, every one of them is supported by a rule;
in the end no rule could lower one or add to them. So a tree is never lower than the height of its
category says, and nothing that derives tokens is lost to generation.
-/

namespace Readings.Heights

open Grammar

variable {h h' : Heights} {c : String} {n : Nat} {rule : Rule}

section OfRule

theorem ofRule?_eq_some_iff :
    h.ofRule? rule = some n ↔
      ∃ below : List Nat, rule.rhs.map h.height? = below.map some ∧ below.foldl max 0 + 1 = n := by
  rw [ofRule?, Option.map_eq_some_iff]
  simp only [mapM_eq_some_iff]

/-- A rule can be completed into words if every category on its right-hand side can be. -/
theorem isSome_ofRule?_iff : (h.ofRule? rule).isSome ↔ ∀ c ∈ rule.rhs, (h.height? c).isSome := by
  rw [ofRule?, Option.isSome_map, isSome_mapM_iff]

/-- A rule is above all the categories on its right-hand side. -/
theorem exists_ofRule?_le_iff :
    (∃ k ≤ n + 1, h.ofRule? rule = some k) ↔ ∀ c ∈ rule.rhs, ∃ m ≤ n, h.height? c = some m := by
  constructor
  · rintro ⟨k, hk, hrule⟩ c hc
    obtain ⟨below, hbelow, rfl⟩ := ofRule?_eq_some_iff.1 hrule
    have hmem : h.height? c ∈ below.map some := hbelow ▸ List.mem_map_of_mem hc
    obtain ⟨m, hm, heq⟩ := List.mem_map.1 hmem
    exact ⟨m, (foldl_max_le_iff.1 (Nat.le_of_succ_le_succ hk)).2 m hm, heq.symm⟩
  · intro hall
    have hsome : (rule.rhs.mapM h.height?).isSome := by
      refine isSome_mapM_iff.2 fun c hc ↦ ?_
      obtain ⟨m, -, hm⟩ := hall c hc
      exact Option.isSome_of_eq_some hm
    obtain ⟨below, hbelow⟩ := Option.isSome_iff_exists.1 hsome
    have hmap := mapM_eq_some_iff.1 hbelow
    refine ⟨_, Nat.succ_le_succ (foldl_max_le_iff.2 ⟨Nat.zero_le n, fun m hm ↦ ?_⟩),
      ofRule?_eq_some_iff.2 ⟨below, hmap, rfl⟩⟩
    have hmem : some m ∈ rule.rhs.map h.height? := hmap ▸ List.mem_map_of_mem hm
    obtain ⟨c, hc, heq⟩ := List.mem_map.1 hmem
    obtain ⟨m', hm', heq'⟩ := hall c hc
    rw [heq, Option.some.injEq] at heq'
    exact heq' ▸ hm'

theorem height?_lt_of_ofRule? (hn : h.ofRule? rule = some n) (hc : c ∈ rule.rhs) :
    ∃ m < n, h.height? c = some m := by
  obtain ⟨below, -, rfl⟩ := ofRule?_eq_some_iff.1 hn
  obtain ⟨m, hm, heq⟩ := exists_ofRule?_le_iff.1 ⟨_, Nat.le_refl _, hn⟩ c hc
  exact ⟨m, Nat.lt_succ_of_le hm, heq⟩

/-- With trees of least height side by side there is nothing to gain below a rule. -/
theorem ofRule?_of_trees {ts : List Tree} (hts : ts.map Tree.category = rule.rhs)
    (hheight : ∀ t ∈ ts, h.height? t.category = some t.height) :
    h.ofRule? rule = some ((ts.map Tree.height).foldl max 0 + 1) := by
  refine ofRule?_eq_some_iff.2 ⟨ts.map Tree.height, ?_, rfl⟩
  rw [← hts, List.map_map, List.map_map]
  exact List.map_congr_left hheight

theorem ofRule?_mono (hle : h' ≤ h) (hn : h.ofRule? rule = some n) :
    ∃ k ≤ n, h'.ofRule? rule = some k := by
  obtain ⟨below, -, rfl⟩ := ofRule?_eq_some_iff.1 hn
  refine exists_ofRule?_le_iff.2 fun c hc ↦ ?_
  obtain ⟨m, hm, hc⟩ := exists_ofRule?_le_iff.1 ⟨_, Nat.le_refl _, hn⟩ c hc
  obtain ⟨m', hm', hc⟩ := hle c m hc
  exact ⟨m', hm'.trans hm, hc⟩

end OfRule

variable {g : Grammar} {p : Heights × Bool} {rules : List Rule}

/-- Terminals have height 0, and what other heights there are is no less than some rule gives. -/
structure Supported (g : Grammar) (h : Heights) : Prop where
  terminal : ∀ c, g.isTerminal c → h.height? c = some 0
  rule : ∀ c n, h.height? c = some n → ¬ g.isTerminal c →
    ∃ rule ∈ g.rules, rule.lhs = c ∧ ∃ k ≤ n, h.ofRule? rule = some k

/-- No rule has a lower height for its head than is known. -/
def Closed (rules : List Rule) (h : Heights) : Prop :=
  ∀ rule ∈ rules, ∀ k, h.ofRule? rule = some k → ∃ n ≤ k, h.height? rule.lhs = some n

section Settle

theorem mem_lexical_iff (hg : g.WellFormed) :
    (c ∈ g.terminals.filter fun c ↦ !(g.lexicon.tokensOf c).isEmpty) ↔ g.isTerminal c := by
  rw [List.mem_filter, Bool.not_eq_true', List.isEmpty_eq_false_iff, hg.tokensOf_ne_nil_iff]
  exact and_iff_right_of_imp hg.mem_terminals_iff.2

theorem supported_lexical (hg : g.WellFormed) : Supported g (lexical g) where
  terminal _ hc := List.lookup_graph (fun _ ↦ 0) ((mem_lexical_iff hg).2 hc)
  rule c _ hn hc := by
    obtain ⟨_, hmem, heq⟩ := List.lookup_isSome_iff.1 (Option.isSome_of_eq_some hn)
    obtain ⟨c', hc', rfl⟩ := List.mem_map.1 hmem
    obtain rfl := beq_iff_eq.1 heq
    exact absurd ((mem_lexical_iff hg).1 hc') hc

theorem Supported.note (hg : g.WellFormed) (hh : Supported g h) (hr : rule ∈ g.rules)
    (hgain : h.gain? rule = some n) : Supported g (h.note rule.lhs n) := by
  obtain ⟨hrule, hlt⟩ := gain?_eq_some_iff.1 hgain
  have hle := note_le hlt
  constructor
  · intro c hc
    have hne : c ≠ rule.lhs := by
      rintro rfl
      exact not_isTerminal_of_isNonterminal (hg.lhs_isNonterminal rule hr) hc
    rw [height?_note, if_neg hne]
    exact hh.terminal c hc
  · intro c m hm hc
    rw [height?_note] at hm
    split at hm
    next heq =>
      cases hm
      exact ⟨rule, hr, heq.symm, ofRule?_mono hle hrule⟩
    next =>
      obtain ⟨old, hold, hlhs, k, hk, hrule⟩ := hh.rule c m hm hc
      obtain ⟨k', hk', hrule⟩ := ofRule?_mono hle hrule
      exact ⟨old, hold, hlhs, k', hk'.trans hk, hrule⟩

theorem Supported.relax (hg : g.WellFormed) (hp : Supported g p.1) (hr : rule ∈ g.rules) :
    Supported g (Heights.relax p rule).1 := by
  cases hgain : p.1.gain? rule with
  | none =>
    rw [relax_of_no_gain hgain]
    exact hp
  | some n =>
    rw [relax_of_gain hgain]
    exact hp.note hg hr hgain

theorem Supported.foldl_relax (hg : g.WellFormed) (hp : Supported g p.1)
    (hrules : ∀ rule ∈ rules, rule ∈ g.rules) : Supported g (rules.foldl Heights.relax p).1 := by
  induction rules generalizing p with
  | nil => exact hp
  | cons rule rules ih =>
    obtain ⟨hr, hrest⟩ := List.forall_mem_cons.1 hrules
    exact ih (hp.relax hg hr) hrest

/-- Rules that change nothing have nothing to gain. -/
theorem foldl_relax_quiet (hquiet : (rules.foldl Heights.relax p).2 = false) :
    rules.foldl Heights.relax p = p ∧ ∀ rule ∈ rules, p.1.gain? rule = none := by
  induction rules generalizing p with
  | nil => exact ⟨rfl, by simp⟩
  | cons rule rules ih =>
    obtain ⟨heq, hnone⟩ := ih hquiet
    rw [List.foldl_cons, heq]
    rw [List.foldl_cons, heq] at hquiet
    cases hgain : p.1.gain? rule with
    | none =>
      rw [relax_of_no_gain hgain] at hnone ⊢
      exact ⟨rfl, List.forall_mem_cons.2 ⟨hgain, hnone⟩⟩
    | some n =>
      rw [relax_of_gain hgain] at hquiet
      cases hquiet

theorem closed_of_gain? (hnone : ∀ rule ∈ rules, h.gain? rule = none) : Closed rules h := by
  intro rule hr k hk
  by_contra! hlow
  have hgain : h.gain? rule = some k :=
    gain?_eq_some_iff.2 ⟨hk, fun m hm ↦ Nat.lt_of_not_le fun hmk ↦ hlow m hmk hm⟩
  rw [hnone rule hr] at hgain
  cases hgain

theorem settle_spec (hg : g.WellFormed) (hh : Supported g h) :
    Supported g (settle g.rules h) ∧ Closed g.rules (settle g.rules h) := by
  fun_induction settle g.rules h with
  | case1 h after hchanged ih => exact ih (hh.foldl_relax hg fun _ hr ↦ hr)
  | case2 h after hquiet =>
    obtain ⟨heq, hnone⟩ := foldl_relax_quiet (Bool.eq_false_iff.2 hquiet)
    have hafter : after.1 = h := congrArg Prod.fst heq
    rw [hafter]
    exact ⟨hh, closed_of_gain? hnone⟩

end Settle

theorem supported_ofGrammar (hg : g.WellFormed) : Supported g (ofGrammar g) :=
  (settle_spec hg (supported_lexical hg)).1

theorem closed_ofGrammar (hg : g.WellFormed) : Closed g.rules (ofGrammar g) :=
  (settle_spec hg (supported_lexical hg)).2

/-- The height of a nonterminal is that of one of its rules. -/
theorem exists_ofRule?_eq (hg : g.WellFormed) (hn : (ofGrammar g).height? c = some n)
    (hc : ¬ g.isTerminal c) :
    ∃ rule ∈ g.rules, rule.lhs = c ∧ (ofGrammar g).ofRule? rule = some n := by
  obtain ⟨rule, hr, rfl, k, hk, hrule⟩ := (supported_ofGrammar hg).rule c n hn hc
  obtain ⟨m, hm, hlhs⟩ := closed_ofGrammar hg rule hr k hrule
  rw [hn, Option.some.injEq] at hlhs
  obtain rfl : k = n := Nat.le_antisymm hk (hlhs ▸ hm)
  exact ⟨rule, hr, rfl, hrule⟩

theorem height_pos (hg : g.WellFormed) (hn : (ofGrammar g).height? c = some n)
    (hc : ¬ g.isTerminal c) : 0 < n := by
  obtain ⟨rule, -, -, hrule⟩ := exists_ofRule?_eq hg hn hc
  obtain ⟨below, -, rfl⟩ := ofRule?_eq_some_iff.1 hrule
  exact Nat.succ_pos _

theorem isSome_height?_of_derives (hg : g.WellFormed) {cs ts : List String}
    (hd : g.Derives cs ts) : ∀ c ∈ cs, ((ofGrammar g).height? c).isSome := by
  induction hd with
  | nil => simp
  | @token token category rest ts entry _ ih =>
    have hterminal := (hg.isTerminal_iff category).2 ⟨token, entry⟩
    refine List.forall_mem_cons.2 ⟨?_, ih⟩
    rw [(supported_ofGrammar hg).terminal category hterminal]
    rfl
  | rule mem _ _ ihead itail =>
    obtain ⟨k, hk⟩ := Option.isSome_iff_exists.1 (isSome_ofRule?_iff.2 ihead)
    obtain ⟨n, -, hn⟩ := closed_ofGrammar hg _ mem k hk
    exact List.forall_mem_cons.2 ⟨Option.isSome_of_eq_some hn, itail⟩

/-- No tree is lower than the height of its category. -/
theorem height?_le_of_parses (hg : g.WellFormed) {tokens : List String} {t : Tree}
    (ht : t.Parses g tokens) :
    ∃ n ≤ t.height, (ofGrammar g).height? t.category = some n := by
  induction ht with
  | @leaf terminal token position here entry =>
    have hterminal := (hg.isTerminal_iff terminal).2 ⟨token, entry⟩
    exact ⟨0, Nat.le_refl 0, (supported_ofGrammar hg).terminal terminal hterminal⟩
  | @node rule span children mem matched tile below ih =>
    have hbelow : ∀ c ∈ rule.rhs,
        ∃ m ≤ (children.map Tree.height).foldl max 0, (ofGrammar g).height? c = some m := by
      intro c hc
      rw [← matched] at hc
      obtain ⟨t, ht, rfl⟩ := List.mem_map.1 hc
      obtain ⟨m, hm, hheight⟩ := ih t ht
      have htallest : t.height ≤ (children.map Tree.height).foldl max 0 :=
        (foldl_max_le_iff.1 (Nat.le_refl _)).2 _ (List.mem_map_of_mem ht)
      exact ⟨m, hm.trans htallest, hheight⟩
    obtain ⟨k, hk, hrule⟩ := exists_ofRule?_le_iff.2 hbelow
    obtain ⟨n, hn, hlhs⟩ := closed_ofGrammar hg rule mem k hrule
    exact ⟨n, (hn.trans hk).trans (Tree.height_node ..).ge, hlhs⟩

theorem exists_greatest (hn : h.height? c = some n) :
    ∃ m, IsGreatest {n | ∃ c, h.height? c = some n} m := by
  have hbound : BddAbove {n | ∃ c, h.height? c = some n} := by
    refine ((h.known.map Prod.snd).finite_toSet.subset ?_).bddAbove
    rintro n ⟨c, hc⟩
    obtain ⟨front, back, heq, -⟩ := List.lookup_eq_some_iff.1 hc
    exact List.mem_map.2 ⟨(c, n), by simp [heq], rfl⟩
  exact ⟨_, Nat.sSup_mem ⟨n, c, hn⟩ hbound, fun _ hm ↦ le_csSup hbound hm⟩

end Readings.Heights
