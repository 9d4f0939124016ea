import Mathlib.Data.List.Perm.Subperm
import Readings.Proofs.Forest.Cycle
import Readings.Proofs.Forest.Evaluation

/-!
Sharing does not change the value of a forest. A constituent off the cycles has the same value below
every path that can lead to it, so that one value is worth keeping; a constituent on a cycle only
minds the constituents of the path that lie on cycles too.
-/

namespace Readings.Forest

open Relation

/-- The path consists of nodes of the forest and repeats none. -/
structure IsPath (f : Forest) (path : List Constituent) : Prop where
  nodup : path.Nodup
  isNode : ∀ k ∈ path, (f.node? k).isSome

/-- What the evaluation with sharing relies on. -/
structure Shareable (f : Forest) : Prop where
  mem_nodes : ∀ k, (f.node? k).isSome → k ∈ f.nodes.map (·.1)
  mem_cyclic : ∀ k, k ∈ f.cyclic ↔ TransGen f.Parent k k
  leaf_token : ∀ k n, f.node? k = some n → n.isLeaf → (f.tokens[k.span.start]?).isSome

theorem shareable_forest {g : Grammar} (hg : g.WellFormed) (tokens : List String) :
    (g.forest tokens).Shareable where
  mem_nodes _ hk := (mem_map_fst_nodes_iff hg).2 hk
  mem_cyclic _ := mem_cyclic_iff_transGen hg
  leaf_token k n hn hleaf := by
    obtain ⟨-, token, here, -⟩ :=
      isTerminalAt_of_applications_eq_nil hg hn (List.isEmpty_iff.1 hleaf)
    exact Option.isSome_of_eq_some here

namespace IsPath

variable {f : Forest} {path : List Constituent} {k : Constituent}

theorem nil : f.IsPath [] := ⟨List.nodup_nil, by simp⟩

theorem cons (h : f.IsPath path) (hk : k ∉ path) (hn : (f.node? k).isSome) :
    f.IsPath (k :: path) :=
  ⟨List.nodup_cons.2 ⟨hk, h.nodup⟩, List.forall_mem_cons.2 ⟨hn, h.isNode⟩⟩

theorem length_le (hf : f.Shareable) (h : f.IsPath path) : path.length ≤ f.size := by
  have hsub : path ⊆ f.nodes.map (·.1) := fun k hk ↦ hf.mem_nodes k (h.isNode k hk)
  have hle := (List.subperm_of_subset h.nodup hsub).length_le
  rwa [List.length_map] at hle

/-- What holds of a path if it holds of all longer ones holds of every path. -/
theorem induction {P : List Constituent → Prop} (hf : f.Shareable)
    (step : ∀ path, f.IsPath path →
      (∀ k, k ∉ path → (f.node? k).isSome → P (k :: path)) → P path)
    (h : f.IsPath path) : P path := by
  induction hn : f.size - path.length using Nat.strongRecOn generalizing path with
  | ind n ih =>
    refine step path h fun k hk hnode ↦ ?_
    have hcons := h.cons hk hnode
    have hle := hcons.length_le hf
    rw [List.length_cons] at hle
    exact ih _ (by rw [List.length_cons]; omega) hcons rfl

end IsPath

variable {α : Type} {f : Forest} {alg : Algebra α} {path : List Constituent} {k : Constituent}

theorem nodeValue_congr {below below' : Constituent → α}
    (h : ∀ child, f.Parent k child → below child = below' child) :
    f.nodeValue alg k below = f.nodeValue alg k below' := by
  unfold nodeValue
  cases hn : f.node? k with
  | none => rfl
  | some n =>
    refine if_congr Iff.rfl rfl (congrArg alg.sum (List.map_congr_left fun a ha ↦ ?_))
    exact congrArg (alg.node a.rule k.span)
      (List.map_congr_left fun child hchild ↦ h child ⟨n, hn, a, ha, hchild⟩)

theorem nodeValue_of_none (h : f.node? k = none) (below : Constituent → α) :
    f.nodeValue alg k below = alg.sum [] := by
  rw [nodeValue, h]

theorem nodeValue_of_leaf {n : Node} (h : f.node? k = some n) (hn : n.applications = [])
    (below : Constituent → α) : f.nodeValue alg k below = f.leafValue alg k := by
  rw [nodeValue, h]
  exact if_pos (List.isEmpty_iff.2 hn)

theorem nodeValue_of_applications {n : Node} (h : f.node? k = some n) (hn : n.applications ≠ [])
    (below : Constituent → α) : f.nodeValue alg k below =
      alg.sum (n.applications.map fun a ↦ alg.node a.rule k.span (a.children.map below)) := by
  rw [nodeValue, h]
  exact if_neg fun hleaf ↦ hn (List.isEmpty_iff.1 hleaf)

theorem plainValue_of_mem (hk : k ∈ path) : f.plainValue alg path k = alg.sum [] := by
  rw [plainValue, if_pos hk]

/-- The length of a path never cuts an evaluation short. -/
theorem plainValue_of_notMem (hf : f.Shareable) (h : f.IsPath path) (hk : k ∉ path) :
    f.plainValue alg path k = f.nodeValue alg k (f.plainValue alg (k :: path)) := by
  rw [plainValue, if_neg hk]
  cases hn : f.node? k with
  | none =>
    rw [nodeValue_of_none hn, ite_self]
  | some n =>
    have hle := (h.cons hk (hn ▸ rfl)).length_le hf
    exact if_pos hle

/-- Only the part of the path that can still be met matters. -/
theorem plainValue_congr (hf : f.Shareable) {path' : List Constituent} (h : f.IsPath path)
    (h' : f.IsPath path')
    (hmem : ∀ child, ReflTransGen f.Parent k child → (child ∈ path ↔ child ∈ path')) :
    f.plainValue alg path k = f.plainValue alg path' k := by
  refine h.induction hf (P := fun path ↦ ∀ path' k, f.IsPath path' →
    (∀ child, ReflTransGen f.Parent k child → (child ∈ path ↔ child ∈ path')) →
    f.plainValue alg path k = f.plainValue alg path' k) (fun path h ih path' k h' hmem ↦ ?_)
    path' k h' hmem
  by_cases hk : k ∈ path
  · rw [plainValue_of_mem hk, plainValue_of_mem ((hmem k .refl).1 hk)]
  · have hk' : k ∉ path' := fun hk' ↦ hk ((hmem k .refl).2 hk')
    rw [plainValue_of_notMem hf h hk, plainValue_of_notMem hf h' hk']
    refine nodeValue_congr fun child hchild ↦ ?_
    have hnode := isSome_node?_of_parent hchild
    refine ih k hk hnode _ child (h'.cons hk' hnode) fun below hbelow ↦ ?_
    rw [List.mem_cons, List.mem_cons, hmem below (.head hchild hbelow)]

/-- Each constituent of the path has the one before it among its children. -/
def IsChain (f : Forest) (path : List Constituent) : Prop :=
  path.IsChain fun child k ↦ f.Parent k child

theorem IsChain.cons (h : f.IsChain (k :: path)) {child : Constituent} (hchild : f.Parent k child) :
    f.IsChain (child :: k :: path) :=
  List.isChain_cons_cons.2 ⟨hchild, h⟩

theorem IsChain.transGen (h : f.IsChain (k :: path)) {above : Constituent} (ha : above ∈ path) :
    TransGen f.Parent above k := by
  rw [IsChain] at h
  induction path generalizing k with
  | nil => cases ha
  | cons l path ih =>
    obtain ⟨hl, htail⟩ := List.isChain_cons_cons.1 h
    rcases List.mem_cons.1 ha with rfl | ha
    · exact .single hl
    · exact .tail (ih htail ha) hl

/-- What a constituent off the cycles is worth does not depend on how it is reached. -/
theorem plainValue_of_notMem_cyclic (hf : f.Shareable) (h : f.IsPath path)
    (hchain : f.IsChain (k :: path)) (hk : k ∉ f.cyclic) :
    f.plainValue alg path k = f.plainValue alg [] k := by
  refine plainValue_congr hf h .nil fun child hchild ↦ ?_
  refine iff_of_false (fun hmem ↦ hk ?_) (List.not_mem_nil)
  exact (hf.mem_cyclic k).2 (.trans_right hchild (hchain.transGen hmem))

section Thread

variable {σ β γ : Type} {step : β → σ → γ × σ} (value : β → γ) (Valid : σ → Prop)

/-- If each step gives its value and keeps the state valid, then so do all of them together. -/
theorem thread_spec {bs : List β} {s : σ}
    (hstep : ∀ b ∈ bs, ∀ s, Valid s → (step b s).1 = value b ∧ Valid (step b s).2)
    (hs : Valid s) :
    (thread step bs s).1 = bs.map value ∧ Valid (thread step bs s).2 := by
  induction bs generalizing s with
  | nil => exact ⟨rfl, hs⟩
  | cons b bs ih =>
    obtain ⟨hvalue, hvalid⟩ := hstep b List.mem_cons_self s hs
    obtain ⟨hvalues, hvalids⟩ :=
      ih (fun b hb ↦ hstep b (List.mem_cons_of_mem _ hb)) hvalid
    refine ⟨?_, hvalids⟩
    rw [List.map_cons, ← hvalue, ← hvalues]
    rfl

end Thread

section Node

variable {σ : Type} {below : Constituent → σ → α × σ} {value : Constituent → α} {Valid : σ → Prop}

theorem threadedApplication_spec (alg : Algebra α) (k : Constituent) {a : Application} {s : σ}
    (hbelow : ∀ child ∈ a.children, ∀ s, Valid s →
      (below child s).1 = value child ∧ Valid (below child s).2)
    (hs : Valid s) :
    (threadedApplication alg k below a s).1 = alg.node a.rule k.span (a.children.map value) ∧
      Valid (threadedApplication alg k below a s).2 := by
  obtain ⟨hvalues, hvalid⟩ := thread_spec value Valid hbelow hs
  exact ⟨congrArg (alg.node a.rule k.span) hvalues, hvalid⟩

theorem threadedValue_spec (alg : Algebra α) {s : σ}
    (hbelow : ∀ child, f.Parent k child → ∀ s, Valid s →
      (below child s).1 = value child ∧ Valid (below child s).2)
    (hs : Valid s) :
    (f.threadedValue alg k below s).1 = f.nodeValue alg k value ∧
      Valid (f.threadedValue alg k below s).2 := by
  rw [threadedValue, nodeValue]
  cases hn : f.node? k with
  | none => exact ⟨rfl, hs⟩
  | some n =>
    dsimp only
    split
    · exact ⟨rfl, hs⟩
    · refine And.imp_left (congrArg alg.sum) (thread_spec _ Valid (fun a ha s hs ↦ ?_) hs)
      exact threadedApplication_spec alg k
        (fun child hchild ↦ hbelow child ⟨n, hn, a, ha, hchild⟩) hs

end Node

/-- An evaluation has come down this path: it carries along the cyclic constituents of the path, and
every value that it keeps is the value of a constituent off the cycles. -/
structure ValidWalk (f : Forest) (alg : Algebra α) (path : List Constituent) (w : Walk α) :
    Prop where
  path_eq : w.path = path.filter f.cyclic.contains
  memo : ∀ k v, w.memo[k]? = some v → k ∉ f.cyclic ∧ v = f.plainValue alg [] k

namespace ValidWalk

variable {w : Walk α}

theorem nil : f.ValidWalk alg [] {} := ⟨rfl, fun k v h ↦ by simp at h⟩

theorem mem_path_iff (h : f.ValidWalk alg path w) : k ∈ w.path ↔ k ∈ path ∧ k ∈ f.cyclic := by
  rw [h.path_eq, List.mem_filter]
  rfl

theorem enter (h : f.ValidWalk alg path w) (hk : k ∈ f.cyclic) :
    f.ValidWalk alg (k :: path) (w.enter k) := by
  have hfilter : (k :: path).filter f.cyclic.contains = k :: path.filter f.cyclic.contains :=
    List.filter_cons_of_pos hk
  exact ⟨(congrArg (k :: ·) h.path_eq).trans hfilter.symm, h.memo⟩

theorem leave (h : f.ValidWalk alg (k :: path) w) (hk : k ∈ f.cyclic) :
    f.ValidWalk alg path w.leave := by
  have hfilter : (k :: path).filter f.cyclic.contains = k :: path.filter f.cyclic.contains :=
    List.filter_cons_of_pos hk
  exact ⟨congrArg List.tail (h.path_eq.trans hfilter), h.memo⟩

/-- Off the cycles, nothing is entered. -/
theorem cons_iff (hk : k ∉ f.cyclic) : f.ValidWalk alg (k :: path) w ↔ f.ValidWalk alg path w := by
  have hfilter : (k :: path).filter f.cyclic.contains = path.filter f.cyclic.contains :=
    List.filter_cons_of_neg hk
  constructor
  · exact fun h ↦ ⟨h.path_eq.trans hfilter, h.memo⟩
  · exact fun h ↦ ⟨h.path_eq.trans hfilter.symm, h.memo⟩

theorem keep (h : f.ValidWalk alg path w) (hk : k ∉ f.cyclic) {v : α}
    (hv : v = f.plainValue alg [] k) : f.ValidWalk alg path (w.keep k v) := by
  refine ⟨h.path_eq, fun l u hl ↦ ?_⟩
  rw [Walk.keep, Std.HashMap.getElem?_insert] at hl
  split at hl
  · rename_i he
    obtain rfl := eq_of_beq he
    exact ⟨hk, (Option.some.inj hl).symm.trans hv⟩
  · exact h.memo l u hl

end ValidWalk

/-- The evaluation with sharing gives the plain value, and what it carries along stays valid. -/
theorem sharedValue_spec (hf : f.Shareable) {n : Nat} (hn : f.size < n + path.length)
    (h : f.IsPath path) (hchain : f.IsChain (k :: path)) {w : Walk α}
    (hw : f.ValidWalk alg path w) :
    (f.sharedValue alg f.cyclic n k w).1 = f.plainValue alg path k ∧
      f.ValidWalk alg path (f.sharedValue alg f.cyclic n k w).2 := by
  induction n generalizing path k w with
  | zero =>
    have hle := h.length_le hf
    omega
  | succ n ih =>
    rw [sharedValue]
    cases hmemo : w.memo[k]? with
    | some v =>
      obtain ⟨hk, hv⟩ := hw.memo k v hmemo
      exact ⟨hv.trans (plainValue_of_notMem_cyclic hf h hchain hk).symm, hw⟩
    | none =>
      -- What the children are worth below the path that is extended by their parent.
      have hnode (hk : k ∉ path) {w : Walk α} (hw : f.ValidWalk alg (k :: path) w) :=
        threadedValue_spec alg (fun child hchild w hw ↦ ih (by rw [List.length_cons]; omega)
          (h.cons hk (isSome_node?_of_parent hchild)) (hchain.cons hchild) hw) hw
      simp only
      split
      · rename_i hcyclic
        split
        · rename_i hpath
          have hk := (hw.mem_path_iff.1 (List.contains_iff_mem.1 hpath)).1
          exact ⟨(plainValue_of_mem hk).symm, hw⟩
        · rename_i hpath
          have hk : k ∉ path := fun hk ↦
            hpath (List.contains_iff_mem.2 (hw.mem_path_iff.2 ⟨hk, hcyclic⟩))
          rw [plainValue_of_notMem hf h hk]
          obtain ⟨hvalue, hvalid⟩ := hnode hk (hw.enter hcyclic)
          exact ⟨hvalue, hvalid.leave hcyclic⟩
      · rename_i hcyclic
        have hk' : k ∉ f.cyclic := hcyclic
        have hk : k ∉ path := fun hk ↦ hk' ((hf.mem_cyclic k).2 (hchain.transGen hk))
        have hplain : f.plainValue alg path k = f.plainValue alg [] k :=
          plainValue_of_notMem_cyclic hf h hchain hk'
        rw [plainValue_of_notMem hf h hk] at hplain ⊢
        obtain ⟨hvalue, hvalid⟩ := hnode hk ((ValidWalk.cons_iff hk').2 hw)
        exact ⟨hvalue, ((ValidWalk.cons_iff hk').1 hvalid).keep hk' (hvalue.trans hplain)⟩

theorem value_eq_plainValue (hf : f.Shareable) : f.value alg k = f.plainValue alg [] k :=
  (sharedValue_spec hf (Nat.lt_succ_self f.size) .nil (.singleton k) .nil).1

theorem trees_eq_plainValue (hf : f.Shareable) :
    f.trees k = f.plainValue Algebra.trees [] k :=
  (trees_eq_value k).trans (value_eq_plainValue hf)

theorem count_eq_plainValue (hf : f.Shareable) :
    f.count k = f.plainValue Algebra.counts [] k := by
  rw [count, countBelow_eq_sharedValue hf.leaf_token]
  exact value_eq_plainValue hf

/-- Off the cycles, what a constituent is worth follows from what the constituents below it are
worth on their own. -/
theorem value_of_notMem_cyclic (hf : f.Shareable) (hk : k ∉ f.cyclic) :
    f.value alg k = f.nodeValue alg k (f.value alg) := by
  rw [value_eq_plainValue hf, plainValue_of_notMem hf .nil List.not_mem_nil]
  refine nodeValue_congr fun child hchild ↦ ?_
  have hpath : f.IsPath [k] := IsPath.nil.cons List.not_mem_nil (isSome_node?_of_parent hchild)
  rw [value_eq_plainValue hf]
  refine plainValue_congr hf hpath .nil fun below hbelow ↦ iff_of_false (fun hmem ↦ hk ?_)
    List.not_mem_nil
  rw [List.mem_singleton.1 hmem] at hbelow
  exact (hf.mem_cyclic k).2 (.head' hchild hbelow)

end Readings.Forest
