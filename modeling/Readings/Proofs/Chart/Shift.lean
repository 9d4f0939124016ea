import Readings.Proofs.Chart.Growth
import Readings.Proofs.Chart.Order

/-!
A part of a sentence as a sentence of its own. What is found over the part stands further to the
right in the whole sentence, by as many places as there are tokens before the part.
-/

namespace Readings

def Span.shift (k : Nat) (s : Span) : Span := ⟨s.start + k, s.stop + k⟩

def Constituent.shift (k : Nat) (c : Constituent) : Constituent := ⟨c.category, c.span.shift k⟩

def Application.shift (k : Nat) (a : Application) : Application :=
  ⟨a.rule, a.children.map (·.shift k)⟩

def Node.shift (k : Nat) (n : Node) : Node := ⟨n.category, n.applications.map (·.shift k)⟩

namespace Span

def Inside (s t : Span) : Prop := t.start ≤ s.start ∧ s.stop ≤ t.stop

instance (s t : Span) : Decidable (s.Inside t) := inferInstanceAs (Decidable (_ ∧ _))

variable {s t : Span} {spans : List Span} {k start stop n : Nat}

@[simp] theorem width_shift (k : Nat) (s : Span) : (s.shift k).width = s.width := by
  simp only [shift, width]
  omega

/-- A part of a part is a part of the whole. -/
theorem slice_shift {α : Type} (xs : List α) (h : t.stop ≤ s.width) :
    (t.shift s.start).slice xs = t.slice (s.slice xs) := by
  have hle : min t.width (s.width - t.start) = t.width := by
    rw [width]
    omega
  rw [slice, slice, slice, width_shift, List.drop_take, List.take_take, List.drop_drop, hle]
  exact congrArg (fun i ↦ (xs.drop i).take t.width) (Nat.add_comm t.start s.start)

/-- What lies far enough to the right has been moved there. -/
theorem exists_shift_eq (h : k ≤ s.start) (hs : s.start < s.stop) : ∃ t : Span, t.shift k = s := by
  obtain ⟨start, stop⟩ := s
  refine ⟨⟨start - k, stop - k⟩, ?_⟩
  simp only [shift, mk.injEq] at h hs ⊢
  omega

theorem inSentence_shift_iff (hs : s.InSentence n) (ht : t.stop ≤ s.width) :
    (t.shift s.start).InSentence n ↔ t.InSentence s.width := by
  obtain ⟨hlt, hle⟩ := hs
  simp only [InSentence, shift, width] at ht ⊢
  omega

theorem tile_map_shift_iff :
    Tile (spans.map (shift k)) (start + k) (stop + k) ↔ Tile spans start stop := by
  induction spans generalizing start with
  | nil => rw [List.map_nil, tile_nil_iff, tile_nil_iff, Nat.add_right_cancel_iff]
  | cons s spans ih =>
    rw [List.map_cons, tile_cons_iff, tile_cons_iff]
    simp only [shift, Nat.add_right_cancel_iff, Nat.add_lt_add_iff_right]
    rw [← ih]

theorem Before.shift (h : s.Before t) : (s.shift k).Before (t.shift k) := by
  simp only [Before, Span.shift] at h ⊢
  omega

/-- The spans inside a part of a sentence are met in the order of the part. -/
theorem filter_ofSentence (hs : s.InSentence n) :
    (ofSentence n).filter (·.Inside s) = (ofSentence s.width).map (shift s.start) := by
  have hshift : ((ofSentence s.width).map (shift s.start)).Pairwise Precedes := by
    refine (ofSentence_sorted s.width).map _ fun t u h ↦ ?_
    rw [Precedes, width_shift, width_shift]
    exact h.imp_right (And.imp_right (Nat.add_lt_add_right · s.start))
  refine ((ofSentence_sorted n).filter _).eq_of_mem_iff hshift fun t ↦ ?_
  rw [List.mem_filter, List.mem_map, mem_ofSentence, decide_eq_true_eq]
  constructor
  · intro h
    obtain ⟨hin, hstart, hstop⟩ := h
    obtain ⟨u, rfl⟩ := exists_shift_eq hstart hin.1
    have hu : u.stop ≤ s.width := by
      simp only [shift] at hstop
      rw [width]
      omega
    exact ⟨u, mem_ofSentence.2 ((inSentence_shift_iff hs hu).1 hin), rfl⟩
  · intro h
    obtain ⟨u, hu, rfl⟩ := h
    rw [mem_ofSentence] at hu
    refine ⟨(inSentence_shift_iff hs hu.2).2 hu, ?_⟩
    have hlt := hs.1
    have hstop := hu.2
    rw [width] at hstop
    simp only [Inside, shift]
    omega

end Span

theorem Constituent.exists_map_shift {k : Nat} {cs : List Constituent}
    (h : ∀ c ∈ cs, k ≤ c.span.start ∧ c.span.start < c.span.stop) :
    ∃ cs' : List Constituent, cs'.map (·.shift k) = cs := by
  induction cs with
  | nil => exact ⟨[], rfl⟩
  | cons c cs ih =>
    obtain ⟨⟨hstart, hlt⟩, hcs⟩ := List.forall_mem_cons.1 h
    obtain ⟨s, hs⟩ := Span.exists_shift_eq hstart hlt
    obtain ⟨cs', rfl⟩ := ih hcs
    exact ⟨⟨c.category, s⟩ :: cs', congrArg (· :: _) (congrArg (Constituent.mk c.category) hs)⟩

theorem Constituent.map_span_map_shift (k : Nat) (cs : List Constituent) :
    (cs.map (·.shift k)).map (·.span) = (cs.map (·.span)).map (·.shift k) := by
  rw [List.map_map, List.map_map]
  rfl

theorem Application.Before.shift {a b : Application} (h : a.Before b) (k : Nat) :
    (a.shift k).Before (b.shift k) := by
  have hlex {ss ts : List Span} (h : List.Lex Span.Before ss ts) :
      List.Lex Span.Before (ss.map (·.shift k)) (ts.map (·.shift k)) := by
    induction h with
    | nil => exact .nil
    | cons _ ih => exact .cons ih
    | rel h => exact .rel h.shift
  refine h.imp_right (And.imp_right fun h ↦ ?_)
  rw [Application.shift, Application.shift, Constituent.map_span_map_shift,
    Constituent.map_span_map_shift]
  exact hlex h

end Readings
