import Readings.Proofs.Forest.Reading
import Readings.Proofs.Grammar.Variant

/-!
Brackets identify trees. Where names and tokens hold none of the marks that brackets are written
with, the text of a tree gives back its labels and tokens; the rules then follow from the labels,
and the spans from where the tree begins.
-/

namespace Readings

open Grammar Readings.Span

/-- What brackets are written with beside names and tokens. -/
def marks : List Char := [' ', '[', ']']

def Plain (s : String) : Prop := ∀ c ∈ s.toList, c ∉ marks

/-- A text without marks ends where the next mark stands. -/
theorem append_mark_inj {x y : Char} {text text' rest rest' : List Char}
    (ht : ∀ c ∈ text, c ∉ marks) (ht' : ∀ c ∈ text', c ∉ marks) (hx : x ∈ marks) (hy : y ∈ marks)
    (h : text ++ x :: rest = text' ++ y :: rest') : text = text' ∧ x = y ∧ rest = rest' := by
  induction text generalizing text' with
  | nil =>
    cases text' with
    | nil => exact ⟨rfl, List.cons.inj h⟩
    | cons c text' =>
      obtain ⟨rfl, -⟩ := List.cons.inj h
      exact absurd hx (ht' x List.mem_cons_self)
  | cons c text ih =>
    cases text' with
    | nil =>
      obtain ⟨rfl, -⟩ := List.cons.inj h
      exact absurd hy (ht c List.mem_cons_self)
    | cons c' text' =>
      obtain ⟨rfl, htail⟩ := List.cons.inj h
      obtain ⟨rfl, hrest⟩ := ih (List.forall_mem_cons.1 ht).2 (List.forall_mem_cons.1 ht').2 htail
      exact ⟨rfl, hrest⟩

theorem Plain.append_mark_inj {s s' : String} (hs : Plain s) (hs' : Plain s') {x y : Char}
    {rest rest' : List Char} (hx : x ∈ marks) (hy : y ∈ marks)
    (h : s.toList ++ x :: rest = s'.toList ++ y :: rest') : s = s' ∧ x = y ∧ rest = rest' := by
  obtain ⟨hs, hrest⟩ := Readings.append_mark_inj hs hs' hx hy h
  exact ⟨String.toList_inj.1 hs, hrest⟩

variable {g : Grammar} {tokens : List String}

/-- The names of the grammar and the tokens of the sentence are without marks. -/
structure Grammar.Legible (g : Grammar) (tokens : List String) : Prop where
  name : ∀ s ∈ g.symbols, Plain s.name
  token : ∀ token ∈ tokens, Plain token

namespace Grammar.Legible

theorem of_any_symbol? (h : g.Legible tokens) (hg : g.WellFormed) {c : String} {p : Symbol → Bool}
    (hc : (g.symbol? c).any p) : Plain c := by
  obtain ⟨s, hs, -⟩ := (Option.any_eq_true _ _).1 hc
  obtain ⟨hmem, rfl⟩ := (hg.symbol?_eq_some_iff c s).1 hs
  exact h.name s hmem

theorem lhs (h : g.Legible tokens) (hg : g.WellFormed) {rule : Rule} (hr : rule ∈ g.rules) :
    Plain rule.lhs :=
  h.of_any_symbol? hg (hg.lhs_isNonterminal rule hr)

theorem terminal (h : g.Legible tokens) (hg : g.WellFormed) {token terminal : String}
    (entry : ⟨token, terminal⟩ ∈ g.lexicon.entries) : Plain terminal :=
  h.of_any_symbol? hg ((hg.isTerminal_iff terminal).2 ⟨token, entry⟩)

end Grammar.Legible

namespace Tree

section Text

/-- What is written behind the label of a node: the children, and the end of the brackets. -/
def row (ts : List Tree) : List Char := (ts.flatMap fun t ↦ ' ' :: t.brackets.toList) ++ [']']

theorem row_nil : row [] = [']'] := rfl

theorem row_cons (t : Tree) (ts : List Tree) :
    row (t :: ts) = ' ' :: (t.brackets.toList ++ row ts) := by
  simp [row]

theorem exists_row_eq_cons (ts : List Tree) : ∃ x ∈ marks, ∃ rest, row ts = x :: rest := by
  cases ts with
  | nil => exact ⟨']', by decide, [], row_nil⟩
  | cons t ts => exact ⟨' ', by decide, _, row_cons t ts⟩

theorem brackets_node (rule : Rule) (span : Span) (children : List Tree) :
    (node rule span children).brackets =
      "[" ++ rule.lhs ++ String.join (children.map (" " ++ ·.brackets)) ++ "]" := by
  rw [brackets, fold_node, List.map_map]
  rfl

theorem toList_brackets_leaf (terminal token : String) (position : Nat) :
    (leaf terminal token position).brackets.toList =
      '[' :: (terminal.toList ++ ' ' :: (token.toList ++ [']'])) := by
  simp [brackets]

theorem toList_brackets_node (rule : Rule) (span : Span) (children : List Tree) :
    (node rule span children).brackets.toList = '[' :: (rule.lhs.toList ++ row children) := by
  simp [brackets_node, String.toList_join, List.flatMap_map, row]

theorem exists_brackets_eq_cons (t : Tree) : ∃ rest, t.brackets.toList = '[' :: rest := by
  cases t with
  | leaf => exact ⟨_, toList_brackets_leaf ..⟩
  | node => exact ⟨_, toList_brackets_node ..⟩

end Text

section Identify

variable {ts us : List Tree} {xs ys : List Char}

theorem brackets_leaf_inj {terminal terminal' token token' : String} {position position' : Nat}
    (hterminal : Plain terminal) (hterminal' : Plain terminal') (htoken : Plain token)
    (htoken' : Plain token')
    (h : (leaf terminal token position).brackets.toList ++ xs =
      (leaf terminal' token' position').brackets.toList ++ ys) :
    terminal = terminal' ∧ token = token' ∧ xs = ys := by
  rw [toList_brackets_leaf, toList_brackets_leaf] at h
  simp only [List.cons_append, List.append_assoc, List.cons.injEq, true_and] at h
  obtain ⟨hsame, -, hbody⟩ := hterminal.append_mark_inj hterminal' (by decide) (by decide) h
  obtain ⟨hsame', -, hend⟩ := htoken.append_mark_inj htoken' (by decide) (by decide) hbody
  exact ⟨hsame, hsame', hend⟩

theorem brackets_node_inj {rule rule' : Rule} {span span' : Span} (hlhs : Plain rule.lhs)
    (hlhs' : Plain rule'.lhs)
    (h : (node rule span ts).brackets.toList ++ xs = (node rule' span' us).brackets.toList ++ ys) :
    rule.lhs = rule'.lhs ∧ row ts ++ xs = row us ++ ys := by
  rw [toList_brackets_node, toList_brackets_node] at h
  simp only [List.cons_append, List.append_assoc, List.cons.injEq, true_and] at h
  obtain ⟨x, hx, rest, hts⟩ := exists_row_eq_cons ts
  obtain ⟨y, hy, rest', hus⟩ := exists_row_eq_cons us
  rw [hts, hus] at h ⊢
  obtain ⟨hsame, hmark, hrest⟩ := hlhs.append_mark_inj hlhs' hx hy h
  exact ⟨hsame, congrArg₂ List.cons hmark hrest⟩

/-- Rows that begin at the same place are the same, if this holds of the trees in them. -/
theorem row_inj {start stop stop' : Nat} (hts : Tile (ts.map span) start stop)
    (hus : Tile (us.map span) start stop')
    (ih : ∀ t ∈ ts, ∀ u ∈ us, t.span.start = u.span.start → ∀ xs ys : List Char,
      t.brackets.toList ++ xs = u.brackets.toList ++ ys → t = u ∧ xs = ys)
    (h : row ts ++ xs = row us ++ ys) : ts = us ∧ xs = ys := by
  induction ts generalizing us start with
  | nil =>
    cases us with
    | nil => exact ⟨rfl, (List.cons.inj h).2⟩
    | cons u us =>
      rw [row_nil, row_cons] at h
      exact absurd (List.cons.inj h).1 (by decide)
  | cons t ts ihts =>
    cases us with
    | nil =>
      rw [row_nil, row_cons] at h
      exact absurd (List.cons.inj h).1 (by decide)
    | cons u us =>
      rw [row_cons, row_cons, List.cons_append, List.cons_append, List.cons.injEq,
        List.append_assoc, List.append_assoc] at h
      obtain ⟨hstart, -, htail⟩ := tile_cons_iff.1 hts
      obtain ⟨hstart', -, htail'⟩ := tile_cons_iff.1 hus
      obtain ⟨rfl, hrest⟩ := ih t List.mem_cons_self u List.mem_cons_self
        (hstart.trans hstart'.symm) _ _ h.2
      obtain ⟨hsame, hend⟩ := ihts htail htail'
        (fun t ht u hu ↦ ih t (List.mem_cons_of_mem _ ht) u (List.mem_cons_of_mem _ hu)) hrest
      exact ⟨congrArg _ hsame, hend⟩

/-- Behind the label of a leaf stands a token, behind that of a node there are brackets. -/
theorem brackets_leaf_ne_node {terminal token : String} {position : Nat} {rule : Rule} {span : Span}
    {children : List Tree} (hterminal : Plain terminal) (htoken : Plain token)
    (hlhs : Plain rule.lhs) (hne : children ≠ []) :
    (leaf terminal token position).brackets.toList ++ xs ≠
      (node rule span children).brackets.toList ++ ys := by
  intro h
  obtain ⟨t, ts, rfl⟩ := List.exists_cons_of_ne_nil hne
  obtain ⟨rest, ht⟩ := exists_brackets_eq_cons t
  rw [toList_brackets_leaf, toList_brackets_node, row_cons, ht] at h
  simp only [List.cons_append, List.append_assoc, List.cons.injEq, true_and] at h
  obtain ⟨-, -, hbody⟩ := hterminal.append_mark_inj hlhs (by decide) (by decide) h
  -- the token, which may be empty, ends at a mark that a node does not have there
  have hnone : ∀ c ∈ ([] : List Char), c ∉ marks := List.forall_mem_nil _
  obtain ⟨-, hmark, -⟩ := append_mark_inj htoken hnone (by decide) (by decide) hbody
  exact absurd hmark (by decide)

/-- Parses that begin at the same place and are written in the same way are the same. -/
theorem Parses.brackets_inj (hg : g.Built) (hl : g.Legible tokens) {t u : Tree}
    (ht : t.Parses g tokens) (hu : u.Parses g tokens) (hstart : t.span.start = u.span.start)
    (xs ys : List Char) (h : t.brackets.toList ++ xs = u.brackets.toList ++ ys) :
    t = u ∧ xs = ys := by
  have hwf := hg.wellFormed
  induction ht generalizing u xs ys with
  | @leaf terminal token position here entry =>
    have hterminal := hl.terminal hwf entry
    have htoken := hl.token token (List.mem_of_getElem? here)
    cases hu with
    | @leaf terminal' token' position' here' entry' =>
      obtain ⟨rfl, rfl, hend⟩ := brackets_leaf_inj hterminal (hl.terminal hwf entry') htoken
        (hl.token token' (List.mem_of_getElem? here')) h
      obtain rfl : position = position' := hstart
      exact ⟨rfl, hend⟩
    | node mem matched =>
      exact absurd h (brackets_leaf_ne_node hterminal htoken (hl.lhs hwf mem)
        (children_ne_nil hwf mem matched))
  | @node rule span children mem matched tile below ih =>
    cases hu with
    | @leaf terminal token position here entry =>
      exact absurd h.symm (brackets_leaf_ne_node (hl.terminal hwf entry)
        (hl.token token (List.mem_of_getElem? here)) (hl.lhs hwf mem)
        (children_ne_nil hwf mem matched))
    | @node rule' span' children' mem' matched' tile' below' =>
      obtain ⟨hlhs, hrow⟩ := brackets_node_inj (hl.lhs hwf mem) (hl.lhs hwf mem') h
      change span.start = span'.start at hstart
      have htile : Tile (children'.map Tree.span) span.start span'.stop := hstart ▸ tile'
      obtain ⟨rfl, hend⟩ := row_inj tile htile
        (fun t ht u hu hs xs ys h ↦ ih t ht (below' u hu) hs xs ys h) hrow
      -- the rules say the same, since the children have the same names
      have hproduction : rule.toProduction = rule'.toProduction :=
        congrArg₂ Production.mk hlhs (matched.symm.trans matched')
      have hspan : span = span' :=
        congrArg₂ Span.mk hstart (tile.stop_eq.symm.trans htile.stop_eq)
      rw [hg.rule_ext mem mem' hproduction, hspan]
      exact ⟨rfl, hend⟩

end Identify

end Tree

/-- If names and tokens are without marks, then the readings of a sentence are told apart by how
they are written. -/
theorem brackets_identify (g : Grammar) (hg : g.Built) (tokens : List String)
    (hl : g.Legible tokens) (start : String) (b : Budget) (f : Forest)
    (hf : enumerate g start tokens b = .ok f) (name : String) :
    (∀ t ∈ f.readings name, ∀ u ∈ f.readings name, toString t = toString u → t = u) ∧
      ((f.readings name).map toString).Nodup := by
  obtain rfl := eq_forest_of_enumerate hf
  have hwf := hg.wellFormed
  have hinj : ∀ t ∈ (g.forest tokens).readings name, ∀ u ∈ (g.forest tokens).readings name,
      toString t = toString u → t = u := by
    intro t ht u hu h
    have hroot := (Forest.constituent_of_mem_readings hwf ht).trans
      (Forest.constituent_of_mem_readings hwf hu).symm
    have hstart : t.span.start = u.span.start := congrArg (·.span.start) hroot
    have htext : t.brackets.toList ++ [] = u.brackets.toList ++ [] := by
      rw [show t.brackets = u.brackets from h]
    exact ((Forest.parses_of_mem_readings hwf ht).brackets_inj hg hl
      (Forest.parses_of_mem_readings hwf hu) hstart [] [] htext).1
  exact ⟨hinj, (Forest.readings_nodup hwf name).map_on hinj⟩

theorem brackets_identify_looping :
    looping.Built ∧ looping.Legible ["x", "x", "x"] ∧
      enumerate looping "S" ["x", "x", "x"] .unlimited = .ok (looping.forest ["x", "x", "x"]) ∧
      (∀ t ∈ (looping.forest ["x", "x", "x"]).readings "S",
        ∀ u ∈ (looping.forest ["x", "x", "x"]).readings "S", toString t = toString u → t = u) ∧
      (((looping.forest ["x", "x", "x"]).readings "S").map toString).Nodup :=
  have hl : looping.Legible ["x", "x", "x"] :=
    ⟨by simp [looping, Plain, marks], by simp [Plain, marks]⟩
  have hf := enumerate_unlimited (by decide)
  ⟨looping_built, hl, hf,
    brackets_identify looping looping_built ["x", "x", "x"] hl "S" .unlimited _ hf "S"⟩

end Readings
