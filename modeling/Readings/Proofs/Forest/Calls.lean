import Mathlib.Data.List.Permutation
import Readings.Proofs.Forest.Sharing
import Readings.Proofs.Forest.UnaryCycle

/-!
Every single call of an evaluation with sharing. Values are kept while some path is active and used
under others; what makes up for this is that each call gives what the plain evaluation gives below
all that stands above it.
-/

namespace Readings

namespace Forest

variable {α : Type}

/-- What is carried along to a child of a node: the node has been entered, the applications before
that of the child have been evaluated, and so have the children to its left. -/
def walkTo (f : Forest) (alg : Algebra α) (n : Nat) (k : Constituent) (before : List Application)
    (left : List Constituent) (w : Walk α) : Walk α :=
  let below := f.sharedValue alg f.cyclic n
  let w := if f.cyclic.contains k then w.enter k else w
  let w := (thread (threadedApplication alg k below) before w).2
  (thread below left w).2

/-- The calls that the evaluation of `root` makes: all that stands above the constituent that is
asked for, the innermost first, then this constituent, and what is carried along by then. A call is
passed on to the children of a node unless its value is known or its constituent is met again. -/
inductive Calls (f : Forest) (alg : Algebra α) (root : Constituent) :
    List Constituent → Constituent → Walk α → Prop
  | root : Calls f alg root [] root {}
  | child {above : List Constituent} {k child : Constituent} {w : Walk α} {n : Node}
      {a : Application} {before after : List Application} {left right : List Constituent}
      (call : Calls f alg root above k w) (unknown : w.memo[k]? = none)
      (unmet : k ∈ f.cyclic → k ∉ w.path) (node : f.node? k = some n)
      (applications : n.applications = before ++ a :: after)
      (children : a.children = left ++ child :: right) :
      Calls f alg root (k :: above) child (f.walkTo alg (f.size - above.length) k before left w)

variable {f : Forest} {alg : Algebra α} {root k : Constituent} {above : List Constituent}
  {w : Walk α}

/-- The first call below a constituent that lies on a cycle. -/
theorem Calls.first (call : f.Calls alg root above k w) (hk : k ∈ f.cyclic)
    (unknown : w.memo[k]? = none) (unmet : k ∉ w.path) {n : Node} (node : f.node? k = some n)
    {a : Application} {after : List Application} (applications : n.applications = a :: after)
    {child : Constituent} {right : List Constituent} (children : a.children = child :: right) :
    f.Calls alg root (k :: above) child (w.enter k) := by
  have hchild := call.child unknown (fun _ ↦ unmet) node
    (applications.trans (List.nil_append _).symm) (children.trans (List.nil_append _).symm)
  have hcyclic : f.cyclic.contains k = true := hk
  rwa [walkTo, if_pos hcyclic] at hchild

theorem walkTo_valid (hf : f.Shareable) (hpath : f.IsPath above) (hchain : f.IsChain (k :: above))
    (hk : k ∉ above) (hw : f.ValidWalk alg above w) {n : Node} (hn : f.node? k = some n)
    {a : Application} {before after : List Application}
    (ha : n.applications = before ++ a :: after) {left right : List Constituent}
    (hleft : a.children = left ++ right) :
    f.ValidWalk alg (k :: above) (f.walkTo alg (f.size - above.length) k before left w) := by
  have hlen := hpath.length_le hf
  have hcons := hpath.cons hk (hn ▸ rfl)
  have hbelow (child : Constituent) (hchild : f.Parent k child) (w : Walk α)
      (hw : f.ValidWalk alg (k :: above) w) :=
    sharedValue_spec hf (n := f.size - above.length) (by rw [List.length_cons]; omega) hcons
      (hchain.cons hchild) hw
  have hentered : f.ValidWalk alg (k :: above)
      (if f.cyclic.contains k then w.enter k else w) := by
    split
    next hcyclic => exact hw.enter hcyclic
    next hcyclic => exact (ValidWalk.cons_iff hcyclic).2 hw
  have hbefore := (thread_spec
    (fun a ↦ alg.node a.rule k.span (a.children.map (f.plainValue alg (k :: above))))
    (f.ValidWalk alg (k :: above)) (fun b hb w hw ↦ threadedApplication_spec alg k
      (fun child hchild ↦ hbelow child ⟨n, hn, b, ha ▸ List.mem_append_left _ hb, hchild⟩) hw)
    hentered).2
  refine (thread_spec (f.plainValue alg (k :: above)) (f.ValidWalk alg (k :: above))
    (fun child hchild ↦ hbelow child ⟨n, hn, a, ?_, ?_⟩) hbefore).2
  · simp [ha]
  · exact hleft ▸ List.mem_append_left _ hchild

/-- Each call comes down a path that repeats nothing, and what it carries along is valid there. -/
theorem Calls.reaches (hf : f.Shareable) (h : f.Calls alg root above k w) :
    f.IsPath above ∧ f.IsChain (k :: above) ∧ f.ValidWalk alg above w := by
  induction h with
  | root => exact ⟨.nil, .singleton root, .nil⟩
  | @child above k child w n a before after left right _ _ unmet node applications children ih =>
    obtain ⟨hpath, hchain, hw⟩ := ih
    have hk : k ∉ above := by
      intro hk
      have hcyclic := (hf.mem_cyclic k).2 (hchain.transGen hk)
      exact unmet hcyclic (hw.mem_path_iff.2 ⟨hk, hcyclic⟩)
    refine ⟨hpath.cons hk (node ▸ rfl), hchain.cons ⟨n, node, a, ?_, ?_⟩,
      walkTo_valid hf hpath hchain hk hw node applications children⟩
    · simp [applications]
    · simp [children]

theorem Calls.sharedValue_eq (hf : f.Shareable) (h : f.Calls alg root above k w) :
    (f.sharedValue alg f.cyclic (f.size + 1 - above.length) k w).1 = f.plainValue alg above k ∧
      (f.sharedValue alg f.cyclic (f.size + 1 - above.length) k w).2.path = w.path := by
  obtain ⟨hpath, hchain, hw⟩ := h.reaches hf
  have hlen := hpath.length_le hf
  obtain ⟨hvalue, hvalid⟩ := sharedValue_spec hf (n := f.size + 1 - above.length) (by omega) hpath
    hchain hw
  exact ⟨hvalue, hvalid.path_eq.trans hw.path_eq.symm⟩

end Forest

open Grammar

/-- In every forest, an evaluation answers each call on its way as the plain evaluation does that
carries everything above the call along and keeps nothing, and then leaves its path as it was. What
is asked for off the cycles is worth the same below everything that can lead to it. Expanding and
counting are two such evaluations, call by call: what is met again has no tree in the one and counts
zero in the other. -/
theorem sharedValue_exact {α : Type} (alg : Algebra α) (g : Grammar) (hg : g.Built)
    (start : String) (tokens : List String) (b : Budget) (f : Forest)
    (hf : enumerate g start tokens b = .ok f) :
    (∀ root above k w, f.Calls alg root above k w →
      (f.IsPath above ∧ f.IsChain (k :: above)) ∧
      (f.sharedValue alg f.cyclic (f.size + 1 - above.length) k w).1 = f.plainValue alg above k ∧
      (f.sharedValue alg f.cyclic (f.size + 1 - above.length) k w).2.path = w.path) ∧
    (∀ path k, f.IsPath path → f.plainValue alg path k =
      if k ∈ path then alg.sum [] else f.nodeValue alg k (f.plainValue alg (k :: path))) ∧
    (∀ k ∉ f.cyclic, ∀ path path', f.IsPath path → f.IsChain (k :: path) → f.IsPath path' →
      f.IsChain (k :: path') → f.plainValue alg path k = f.plainValue alg path' k) ∧
    (∀ n k w, f.expand f.cyclic n k w = f.sharedValue Algebra.trees f.cyclic n k w) ∧
    ∀ n k w, f.countBelow f.cyclic n k w = f.sharedValue Algebra.counts f.cyclic n k w := by
  obtain rfl := eq_forest_of_enumerate hf
  have hshare := Forest.shareable_forest hg.wellFormed tokens
  refine ⟨fun root above k w h ↦ ?_, fun path k hpath ↦ ?_,
    fun k hk path path' hpath hchain hpath' hchain' ↦ ?_,
    Forest.expand_eq_sharedValue _, Forest.countBelow_eq_sharedValue hshare.leaf_token _⟩
  · obtain ⟨hpath, hchain, -⟩ := h.reaches hshare
    exact ⟨⟨hpath, hchain⟩, h.sharedValue_eq hshare⟩
  · by_cases hk : k ∈ path
    · rw [if_pos hk, Forest.plainValue_of_mem hk]
    · rw [if_neg hk, Forest.plainValue_of_notMem hshare hpath hk]
  · rw [Forest.plainValue_of_notMem_cyclic hshare hpath hchain hk,
      Forest.plainValue_of_notMem_cyclic hshare hpath' hchain' hk]

/-- Asked for at the root, `S` is met again below `A`: there it has no trees, and it is left with
the path that it was asked for under. -/
theorem sharedValue_exact_looping :
    looping.Built ∧ ∃ f, enumerate looping "S" ["x"] .unlimited = .ok f ∧
      ∃ w, f.Calls Algebra.trees ⟨"S", ⟨0, 1⟩⟩ [⟨"A", ⟨0, 1⟩⟩, ⟨"S", ⟨0, 1⟩⟩] ⟨"S", ⟨0, 1⟩⟩ w ∧
        w.path = [⟨"A", ⟨0, 1⟩⟩, ⟨"S", ⟨0, 1⟩⟩] ∧
        (f.sharedValue Algebra.trees f.cyclic (f.size + 1 - 2) ⟨"S", ⟨0, 1⟩⟩ w).1 = [] ∧
        (f.sharedValue Algebra.trees f.cyclic (f.size + 1 - 2) ⟨"S", ⟨0, 1⟩⟩ w).2.path =
          w.path := by
  have hf : enumerate looping "S" ["x"] .unlimited = .ok (looping.forest ["x"]) :=
    enumerate_unlimited (by decide)
  have hs : (looping.forest ["x"]).node? ⟨"S", ⟨0, 1⟩⟩ =
      some ⟨"S", [⟨⟨⟨"S", ["A"]⟩, 1⟩, [⟨"A", ⟨0, 1⟩⟩]⟩]⟩ := by cbv
  have ha : (looping.forest ["x"]).node? ⟨"A", ⟨0, 1⟩⟩ = some ⟨"A",
      [⟨⟨⟨"A", ["S"]⟩, 2⟩, [⟨"S", ⟨0, 1⟩⟩]⟩, ⟨⟨⟨"A", ["a"]⟩, 3⟩, [⟨"a", ⟨0, 1⟩⟩]⟩]⟩ := by cbv
  have hdown : looping.Rewrites "S" "A" := ⟨⟨⟨"S", ["A"]⟩, 1⟩, by decide, rfl, rfl⟩
  have hup : looping.Rewrites "A" "S" := ⟨⟨⟨"A", ["S"]⟩, 2⟩, by decide, rfl, rfl⟩
  have hcyclic_s : ⟨"S", ⟨0, 1⟩⟩ ∈ (looping.forest ["x"]).cyclic :=
    (Forest.mem_cyclic_iff_rewrites looping_built.wellFormed).2
      ⟨hs ▸ rfl, .tail (.single hdown) hup⟩
  have hcyclic_a : ⟨"A", ⟨0, 1⟩⟩ ∈ (looping.forest ["x"]).cyclic :=
    (Forest.mem_cyclic_iff_rewrites looping_built.wellFormed).2
      ⟨ha ▸ rfl, .tail (.single hup) hdown⟩
  obtain ⟨hcalls, hplain, -⟩ :=
    sharedValue_exact Algebra.trees looping looping_built "S" ["x"] .unlimited _ hf
  generalize looping.forest ["x"] = f at *
  have hcall : f.Calls Algebra.trees ⟨"S", ⟨0, 1⟩⟩ [⟨"A", ⟨0, 1⟩⟩, ⟨"S", ⟨0, 1⟩⟩] ⟨"S", ⟨0, 1⟩⟩ _ :=
    (Forest.Calls.root.first hcyclic_s (by simp) (by simp) hs rfl rfl).first hcyclic_a
      (by simp [Forest.Walk.enter]) (by simp [Forest.Walk.enter]) ha rfl rfl
  obtain ⟨⟨hpath, -⟩, hvalue, hleft⟩ := hcalls _ _ _ _ hcall
  refine ⟨looping_built, f, hf, _, hcall, rfl, hvalue.trans ?_, hleft⟩
  rw [hplain _ _ hpath, if_pos (by simp)]
  rfl

end Readings
