import Mathlib.Combinatorics.Enumerative.Catalan.Basic
import Readings.Proofs.Chart.Widths
import Readings.Proofs.Forest.Counting
import Readings.Proofs.Forest.Reading
import Readings.Proofs.Forest.UnaryCycle

/-!
How far readings outgrow their forest. Under a grammar of binary branching, a row of one word has
as many readings as there are binary trees over it, a Catalan number, while its forest has one node
for each span and one for each token.
-/

namespace Readings

open Relation Readings.Span Grammar

section Numbers

/-- Catalan numbers as a running product, rounded down after each step. -/
def catalanProduct (n : Nat) : Nat :=
  (List.range n).foldl (fun c k ↦ c * 2 * (2 * k + 1) / (k + 2)) 1

theorem add_two_mul_catalan_succ (n : Nat) :
    (n + 2) * catalan (n + 1) = catalan n * 2 * (2 * n + 1) := by
  apply Nat.eq_of_mul_eq_mul_left n.succ_pos
  calc (n + 1) * ((n + 2) * catalan (n + 1)) = (n + 1) * (n + 1).centralBinom := by
        rw [succ_mul_catalan_eq_centralBinom]
    _ = 2 * (2 * n + 1) * n.centralBinom := Nat.succ_mul_centralBinom_succ n
    _ = 2 * (2 * n + 1) * ((n + 1) * catalan n) := by rw [succ_mul_catalan_eq_centralBinom]
    _ = (n + 1) * (catalan n * 2 * (2 * n + 1)) := by ring

theorem catalanProduct_eq_catalan (n : Nat) : catalanProduct n = catalan n := by
  induction n with
  | zero => simp [catalanProduct]
  | succ n ih =>
    rw [catalanProduct] at ih
    rw [catalanProduct, List.range_succ, List.foldl_append, ih, List.foldl_cons, List.foldl_nil,
      ← add_two_mul_catalan_succ]
    exact Nat.mul_div_cancel_left _ (Nat.succ_pos _)

/-- Nothing is lost by rounding down. -/
theorem add_two_dvd_catalanProduct (n : Nat) : n + 2 ∣ catalanProduct n * 2 * (2 * n + 1) := by
  rw [catalanProduct_eq_catalan, ← add_two_mul_catalan_succ]
  exact Nat.dvd_mul_right _ _

end Numbers

namespace Grammar

/-- Binary branching over a single word. -/
def binary : Grammar where
  start := "S"
  symbols := [⟨0, "S", .nonterminal⟩, ⟨1, "A", .terminal⟩]
  names := .ofList [("S", Symbol.mk 0 "S" .nonterminal), ("A", Symbol.mk 1 "A" .terminal)]
  rules := [⟨⟨"S", ["S", "S"]⟩, 0⟩, ⟨⟨"S", ["A"]⟩, 1⟩]
  byLhs := .ofList [(0, [0, 1])]
  words.byToken := .ofList [("a", [Symbol.mk 1 "A" .terminal])]
  words.byTerminal := .ofList [(1, ["a"])]

theorem binary_built : binary.Built :=
  ⟨⟨"S", [⟨"S", ["S", "S"]⟩, ⟨"S", ["A"]⟩], [⟨"a", "A"⟩]⟩, rfl⟩

theorem binary_derives (n : Nat) : binary.Derives ["S"] (List.replicate (n + 1) "a") := by
  have hone : binary.Derives ["S"] ["a"] :=
    @Derives.rule binary ⟨⟨"S", ["A"]⟩, 1⟩ [] ["a"] [] (by decide) (.token (by decide) .nil) .nil
  exact @derives_replicate binary ⟨⟨"S", ["S", "S"]⟩, 0⟩ (by decide) rfl "a" hone n

end Grammar

namespace Forest

/-- The forest of a row of words under binary branching. -/
def binaryForest (n : Nat) : Forest := binary.forest (List.replicate n "a")

/-- The ways to derive an `S` over a span: from the word, or branching at a position inside. -/
def branchings (s : Span) : List Application :=
  (if s.width = 1 then [⟨⟨⟨"S", ["A"]⟩, 1⟩, [⟨"A", s⟩]⟩] else []) ++
    (List.range (s.width - 1)).map fun i ↦
      ⟨⟨⟨"S", ["S", "S"]⟩, 0⟩,
        [⟨"S", ⟨s.start, s.start + i + 1⟩⟩, ⟨"S", ⟨s.start + i + 1, s.stop⟩⟩]⟩

variable {n : Nat} {s : Span}

theorem isSome_node?_binaryForest {k : Constituent} :
    ((binaryForest n).node? k).isSome ↔ k.span.InSentence n ∧
      (k.category = "S" ∨ k.category = "A" ∧ k.span.width = 1) := by
  have hg := binary_built.wellFormed
  constructor
  · intro h
    rw [isSome_node?] at h
    obtain ⟨⟨hin, -⟩, hk⟩ := ((grown _ _).has_iff_terminal_or_match hg).1 h
    rw [List.length_replicate] at hin
    refine ⟨hin, ?_⟩
    rcases hk with ⟨hwidth, token, -, hentry⟩ | ⟨rule, hr, hl, -⟩
    · have he : (⟨token, k.category⟩ : LexicalEntry) = ⟨"a", "A"⟩ := List.mem_singleton.1 hentry
      exact .inr ⟨congrArg LexicalEntry.category he, hwidth⟩
    · have hS : ∀ rule ∈ binary.rules, rule.lhs = "S" := by decide
      exact .inl (hl ▸ hS rule hr)
  · intro h
    obtain ⟨hin, hk⟩ := h
    rw [binaryForest, isSome_node?_iff_derives hg, List.length_replicate, slice_replicate "a" hin]
    refine ⟨hin, ?_⟩
    rcases hk with hS | ⟨hA, hwidth⟩
    · obtain ⟨w, hw⟩ := Nat.exists_eq_add_one.2 hin.width_pos
      rw [hS, hw]
      exact binary_derives w
    · rw [hA, hwidth]
      exact .token (by decide) .nil

theorem notMem_cyclic_binaryForest (k : Constituent) : k ∉ (binaryForest n).cyclic := by
  intro hk
  have hends : ∀ rule ∈ binary.rules, rule.lhs = "S" ∧ rule.rhs ≠ ["S"] := by decide
  obtain ⟨-, h⟩ := (mem_cyclic_iff_rewrites binary_built.wellFormed).1 hk
  -- the cycle would lead to `S` again, which no unary rule does
  obtain ⟨_, ⟨rule, hr, hl, -⟩, -⟩ := TransGen.head'_iff.1 h
  obtain ⟨_, -, rule', hr', -, hrhs⟩ := TransGen.tail'_iff.1 h
  refine (hends rule' hr').2 (hrhs.trans ?_)
  rw [← hl, (hends rule hr).1]

theorem mem_branchings_iff {a : Application} :
    a ∈ branchings s ↔
      s.width = 1 ∧ a = ⟨⟨⟨"S", ["A"]⟩, 1⟩, [⟨"A", s⟩]⟩ ∨
      ∃ mid, s.start < mid ∧ mid < s.stop ∧
        a = ⟨⟨⟨"S", ["S", "S"]⟩, 0⟩, [⟨"S", ⟨s.start, mid⟩⟩, ⟨"S", ⟨mid, s.stop⟩⟩]⟩ := by
  rw [branchings, List.mem_append, List.mem_ite_nil_right, List.mem_singleton, List.mem_map]
  refine or_congr_right ?_
  constructor
  · intro h
    obtain ⟨i, hi, rfl⟩ := h
    rw [List.mem_range, width] at hi
    exact ⟨s.start + i + 1, by omega, by omega, rfl⟩
  · intro h
    obtain ⟨mid, hstart, hstop, rfl⟩ := h
    obtain ⟨i, rfl⟩ := Nat.exists_eq_add_of_lt hstart
    exact ⟨i, by rw [List.mem_range, width]; omega, rfl⟩

theorem branchings_nodup (s : Span) : (branchings s).Nodup := by
  rw [branchings, List.nodup_append]
  refine ⟨?_, List.nodup_range.map fun i j he ↦ ?_, fun a ha b hb he ↦ ?_⟩
  · split
    · exact List.nodup_singleton _
    · exact List.nodup_nil
  · simpa using he
  · rw [List.mem_ite_nil_right, List.mem_singleton] at ha
    obtain ⟨i, -, rfl⟩ := List.mem_map.1 hb
    rw [ha.2] at he
    simp at he

/-- Every branching has its place in the forest. -/
theorem applications_binaryForest {m : Node} (hm : (binaryForest n).node? ⟨"S", s⟩ = some m) :
    m.applications.Perm (branchings s) := by
  have hg := binary_built.wellFormed
  have hgrown := grown binary (List.replicate n "a")
  have hsome : ((binaryForest n).node? ⟨"S", s⟩).isSome := by rw [hm]; rfl
  have hin := (isSome_node?_binaryForest.1 hsome).1
  have hhas {k : Constituent} : (binary.forest (List.replicate n "a")).chart.has k ↔
      k.span.InSentence n ∧ (k.category = "S" ∨ k.category = "A" ∧ k.span.width = 1) := by
    rw [← isSome_node?]
    exact isSome_node?_binaryForest
  refine (List.perm_ext_iff_of_nodup (hgrown.applications_nodup hg hm) (branchings_nodup s)).2
    fun a ↦ ?_
  rw [hgrown.mem_applications_iff hg hm, mem_branchings_iff]
  constructor
  · intro h
    obtain ⟨rule, children⟩ := a
    obtain ⟨hr, -, hmatch⟩ := h
    rcases List.mem_pair.1 hr with rfl | rfl
    · obtain ⟨mid, back, rfl, hstart, -, hback⟩ := Chart.matches_cons_iff.1 hmatch
      obtain ⟨rfl, hstop, -⟩ := Chart.matches_singleton_iff.1 hback
      exact .inr ⟨mid, hstart, hstop, rfl⟩
    · obtain ⟨rfl, -, hword⟩ := Chart.matches_singleton_iff.1 hmatch
      exact .inl ⟨by simpa using (hhas.1 hword).2, rfl⟩
  · intro h
    rcases h with ⟨hwidth, rfl⟩ | ⟨mid, hstart, hstop, rfl⟩
    · refine ⟨List.mem_pair.2 (.inr rfl), rfl, ?_⟩
      exact Chart.matches_singleton_iff.2 ⟨rfl, hin.1, hhas.2 ⟨hin, .inr ⟨rfl, hwidth⟩⟩⟩
    · have hleft : (⟨s.start, mid⟩ : Span).InSentence n := ⟨hstart, hstop.le.trans hin.2⟩
      have hright : (⟨mid, s.stop⟩ : Span).InSentence n := ⟨hstop, hin.2⟩
      refine ⟨List.mem_pair.2 (.inl rfl), rfl, Chart.matches_cons_iff.2
        ⟨mid, _, rfl, hstart, hhas.2 ⟨hleft, .inl rfl⟩, ?_⟩⟩
      exact Chart.matches_singleton_iff.2 ⟨rfl, hstop, hhas.2 ⟨hright, .inl rfl⟩⟩

theorem shareable_binaryForest (n : Nat) : (binaryForest n).Shareable :=
  shareable_forest binary_built.wellFormed _

/-- There is one way to read a word. -/
theorem length_trees_word (hs : s.InSentence n) (hwidth : s.width = 1) :
    ((binaryForest n).trees ⟨"A", s⟩).length = 1 := by
  obtain ⟨m, hm⟩ := Option.isSome_iff_exists.1
    (isSome_node?_binaryForest.2 ⟨hs, .inr ⟨rfl, hwidth⟩⟩ :
      ((binaryForest n).node? ⟨"A", s⟩).isSome)
  have htoken : (binaryForest n).tokens[s.start]? = some "a" :=
    List.getElem?_replicate_of_lt (hs.1.trans_le hs.2)
  have hterminal : binary.isTerminal "A" := by decide
  have hleaf : m.applications = [] :=
    applications_eq_nil binary_built.wellFormed hm hterminal
  rw [trees_eq_value,
    value_of_notMem_cyclic (shareable_binaryForest n) (notMem_cyclic_binaryForest _),
    nodeValue_of_leaf hm hleaf, leafValue, htoken]
  rfl

/-- If what is narrower than a span has been counted by Catalan numbers, so is the span: they are
put together from the outermost branchings in the same way. -/
theorem sum_branchings {count : Constituent → Nat} (hs : s.InSentence n)
    (hword : s.width = 1 → count ⟨"A", s⟩ = 1)
    (hparts : ∀ t : Span, t.InSentence n → t.width < s.width →
      count ⟨"S", t⟩ = catalan (t.width - 1)) :
    ((branchings s).map fun a ↦ (a.children.map count).prod).sum = catalan (s.width - 1) := by
  obtain ⟨w, hw⟩ := Nat.exists_eq_add_one.2 hs.width_pos
  rw [branchings, hw, Nat.add_sub_cancel]
  cases w with
  | zero => simp [hword hw]
  | succ w =>
    -- the branching at `i` leaves `i + 1` words on its left and `w - i + 1` on its right
    have hsides : ∀ i ∈ List.range (w + 1),
        count ⟨"S", ⟨s.start, s.start + i + 1⟩⟩ = catalan i ∧
          count ⟨"S", ⟨s.start + i + 1, s.stop⟩⟩ = catalan (w - i) := by
      intro i hi
      obtain ⟨hstart, hstop⟩ := hs
      rw [List.mem_range] at hi
      rw [width] at hw hparts
      have hleft := hparts ⟨s.start, s.start + i + 1⟩
        ⟨(by omega : s.start < s.start + i + 1), (by omega : s.start + i + 1 ≤ n)⟩
        (by simp only [width]; omega)
      have hright := hparts ⟨s.start + i + 1, s.stop⟩
        ⟨(by omega : s.start + i + 1 < s.stop), hstop⟩ (by simp only [width]; omega)
      have hwidth : s.start + i + 1 - s.start - 1 = i := by omega
      have hwidth' : s.stop - (s.start + i + 1) - 1 = w - i := by omega
      exact ⟨hleft.trans (congrArg catalan hwidth), hright.trans (congrArg catalan hwidth')⟩
    have hlong : w + 1 + 1 ≠ 1 := by omega
    rw [if_neg hlong, List.nil_append, List.map_map, catalan_succ',
      Finset.Nat.sum_antidiagonal_eq_sum_range_succ_mk]
    refine congrArg List.sum (List.map_congr_left fun i hi ↦ ?_)
    simp [hsides i hi]

/-- The trees over a span are the binary trees over its words. -/
theorem length_trees_binaryForest (hs : s.InSentence n) :
    ((binaryForest n).trees ⟨"S", s⟩).length = catalan (s.width - 1) := by
  induction hw : s.width using Nat.strongRecOn generalizing s with
  | ind w ih =>
    obtain ⟨m, hm⟩ := Option.isSome_iff_exists.1
      (isSome_node?_binaryForest.2 ⟨hs, .inl rfl⟩ : ((binaryForest n).node? ⟨"S", s⟩).isSome)
    have hterminal : ¬ binary.isTerminal "S" := by decide
    have hne : m.applications ≠ [] := fun hnil ↦ hterminal
      ((isLeaf_iff_isTerminal binary_built.wellFormed hm).1 (List.isEmpty_iff.2 hnil))
    rw [length_trees (shareable_binaryForest n) (notMem_cyclic_binaryForest _) hm hne,
      ((applications_binaryForest hm).map _).sum_eq, ← hw]
    exact sum_branchings hs (length_trees_word hs) fun t ht hlt ↦ ih t.width (hw ▸ hlt) ht rfl

/-- One `S` for each span and one `A` for each token. -/
theorem nodes_binaryForest (n : Nat) : ((binaryForest n).nodes.map (·.1)).Perm
    ((ofSentence n).map (Constituent.mk "S") ++
      (ofSentenceWidth n 1).map (Constituent.mk "A")) := by
  have hg := binary_built.wellFormed
  refine (List.perm_ext_iff_of_nodup (nodes_nodup hg) (List.nodup_append.2 ⟨?_, ?_, ?_⟩)).2
    fun k ↦ ?_
  · exact (ofSentence_nodup n).map fun s t he ↦ congrArg Constituent.span he
  · refine (List.nodup_range.map fun i j he ↦ ?_).map fun s t he ↦ congrArg Constituent.span he
    exact congrArg Span.start he
  · intro k hk l hl he
    obtain ⟨s, -, rfl⟩ := List.mem_map.1 hk
    obtain ⟨t, -, rfl⟩ := List.mem_map.1 hl
    simp at he
  · refine (mem_map_fst_nodes_iff hg).trans (isSome_node?_binaryForest.trans ?_)
    obtain ⟨category, s⟩ := k
    simp only [List.mem_append, List.mem_map, Constituent.mk.injEq, mem_ofSentence,
      mem_ofSentenceWidth]
    constructor
    · intro h
      obtain ⟨hin, rfl | ⟨rfl, hwidth⟩⟩ := h
      · exact .inl ⟨s, hin, rfl, rfl⟩
      · obtain ⟨hlt, hle⟩ := hin
        rw [width] at hwidth
        exact .inr ⟨s, ⟨by omega, by omega⟩, rfl, rfl⟩
    · intro h
      rcases h with ⟨_, hin, rfl, rfl⟩ | ⟨_, ⟨hstop, hstart⟩, rfl, rfl⟩
      · exact ⟨hin, .inl rfl⟩
      · exact ⟨⟨by omega, by omega⟩, .inr ⟨rfl, by rw [width]; omega⟩⟩

theorem size_binaryForest (n : Nat) : (binaryForest n).size = n * (n + 1) / 2 + n := by
  have hlength := (nodes_binaryForest n).length_eq
  rw [List.length_map, List.length_append, List.length_map, List.length_map, length_ofSentence,
    length_ofSentenceWidth, Nat.add_sub_cancel, Nat.choose_two_right, Nat.add_sub_cancel] at hlength
  rw [size, hlength, Nat.mul_comm]

theorem length_branchings (s : Span) :
    (branchings s).length = (if s.width = 1 then 1 else 0) + (s.width - 1) := by
  rw [branchings, List.length_append, List.length_map, List.length_range]
  split <;> rfl

/-- The applications of a node, by what the node is for. -/
theorem length_applications_node {k : Constituent} {m : Node}
    (hm : (binaryForest n).node? k = some m) :
    m.applications.length = if k.category = "S" then (branchings k.span).length else 0 := by
  obtain ⟨category, s⟩ := k
  obtain ⟨-, rfl | ⟨rfl, -⟩⟩ := isSome_node?_binaryForest.1 (Option.isSome_of_eq_some hm)
  · exact (applications_binaryForest hm).length_eq
  · have hterminal : binary.isTerminal "A" := by decide
    exact congrArg List.length (applications_eq_nil binary_built.wellFormed hm hterminal)

/-- Each span of one token has an application for its word, and each span one for each position
inside. -/
theorem sum_length_branchings (n : Nat) :
    ((ofSentence n).map fun s ↦ (branchings s).length).sum = (n + 1).choose 3 + n := by
  have hword : ∑ w ∈ Finset.range n, (n - w) * (if w = 0 then 1 else 0) = n := by
    rcases n.eq_zero_or_pos with rfl | hpos
    · rfl
    · simp [hpos]
  calc ((ofSentence n).map fun s ↦ (branchings s).length).sum
      = ∑ w ∈ Finset.range n, (n - w) * ((if w + 1 = 1 then 1 else 0) + (w + 1 - 1)) := by
        simp only [length_branchings]
        exact sum_map_width n fun w ↦ (if w = 1 then 1 else 0) + (w - 1)
    _ = ∑ w ∈ Finset.range n, ((n - w) * w.choose 1 + (n - w) * (if w = 0 then 1 else 0)) := by
        refine Finset.sum_congr rfl fun w _ ↦ ?_
        rw [Nat.choose_one_right, Nat.add_sub_cancel, ← Nat.mul_add, Nat.add_comm]
        simp
    _ = (n + 1).choose 3 + n := by
        rw [Finset.sum_add_distrib, sum_range_sub_mul_choose, hword]

theorem length_applications_binaryForest (n : Nat) :
    (binaryForest n).applications.length = (n + 1).choose 3 + n := by
  have hnodes : (binaryForest n).applications.length = (((binaryForest n).nodes.map (·.1)).map
      fun k ↦ if k.category = "S" then (branchings k.span).length else 0).sum := by
    rw [applications, List.length_flatMap, List.map_map]
    refine congrArg List.sum (List.map_congr_left fun p hp ↦ ?_)
    exact length_applications_node ((mem_nodes_iff binary_built.wellFormed).1 hp)
  rw [hnodes, ((nodes_binaryForest n).map _).sum_eq, List.map_append, List.sum_append,
    List.map_map, List.map_map, ← sum_length_branchings]
  simp [Function.comp_def]

theorem readingCount_binaryForest (hn : 0 < n) :
    (binaryForest n).readingCount "S" = saturate (catalan (n - 1)) := by
  have hs : binary.isNonterminal "S" := by decide
  have hreadings : (binaryForest n).readings "S" =
      (binaryForest n).plainValue Algebra.trees [] ⟨"S", ⟨0, (List.replicate n "a").length⟩⟩ :=
    readings_eq_plainValue binary_built.wellFormed hs
  rw [List.length_replicate, ← trees_eq_plainValue (shareable_binaryForest n)] at hreadings
  rw [readingCount_eq_saturate (shareable_binaryForest n), hreadings,
    length_trees_binaryForest ⟨hn, Nat.le_refl n⟩]
  rfl

end Forest

/-- Binary branching over a row of `n` words: there are as many readings as a Catalan number says,
cut off at the largest count, while the forest has a node for each span and each token, and an
application for each position inside a span and each token. -/
theorem binary_catalan (n : Nat) (hn : 1 ≤ n) :
    ∃ f, enumerate binary "S" (List.replicate n "a") .unlimited = .ok f ∧
      f.readingCount "S" = min (2 ^ 128 - 1) (catalanProduct (n - 1)) ∧
      catalanProduct (n - 1) = catalan (n - 1) ∧
      (∀ k, k + 2 ∣ catalanProduct k * 2 * (2 * k + 1)) ∧
      f.size = n * (n + 1) / 2 + n ∧
      f.applications.length = (n + 1).choose 3 + n := by
  have hproduct := catalanProduct_eq_catalan (n - 1)
  refine ⟨Forest.binaryForest n, enumerate_unlimited (by decide), ?_, hproduct,
    add_two_dvd_catalanProduct, Forest.size_binaryForest n,
    Forest.length_applications_binaryForest n⟩
  rw [Forest.readingCount_binaryForest hn, hproduct]
  rfl

/-- From 71 words on there are more readings than can be counted. -/
theorem binary_catalan_saturated :
    1 ≤ 71 ∧ ∃ f, enumerate binary "S" (List.replicate 71 "a") .unlimited = .ok f ∧
      f.readingCount "S" = 2 ^ 128 - 1 ∧ f.size = 2627 ∧ f.applications.length = 59711 := by
  obtain ⟨f, hf, hcount, -, -, hsize, happlications⟩ := binary_catalan 71 (by decide)
  have hlarge : 2 ^ 128 - 1 ≤ catalanProduct 70 := by decide +kernel
  have hchoose : (72).choose 3 = 59640 := by decide +kernel
  exact ⟨by decide, f, hf, hcount.trans (Nat.min_eq_left hlarge), hsize,
    happlications.trans (congrArg (· + 71) hchoose)⟩

end Readings
