import Readings.Chart.Basic

/-!
Matching the right-hand sides of long rules against a span, by means of the cells of narrower spans.

A partial match of the first `dot` symbols of a rule keeps only where the last of them starts; the
whole sequence is recovered by following these places through the partial matches of one symbol
less.
-/

namespace Readings.Chart

/-- The places in a span at which the `dot`-th symbol of a match may start. -/
def candidates (s : Span) (dot : Nat) : List Nat :=
  List.range' (s.start + (dot - 1)) (s.stop - (s.start + (dot - 1)))

/-- Every way in which the first `dot` symbols of a rule match the tokens from `start` to `stop`. -/
def partialMatches (c : Chart) (rule : Rule) (start : Nat) :
    (dot stop : Nat) → List (List Constituent)
  | 0, _ => [[]]
  | dot + 1, stop =>
    match c.splits? rule (dot + 1) ⟨start, stop⟩, rule.rhs[dot]? with
    | some splits, some category =>
      splits.flatMap fun split ↦
        (c.partialMatches rule start dot split).map (· ++ [⟨category, ⟨split, stop⟩⟩])
    | _, _ => []

def wholeMatches (c : Chart) (rule : Rule) (s : Span) : List (List Constituent) :=
  match rule.rhs.getLast? with
  | none => []
  | some category =>
    let splits := (candidates s rule.arity).filter fun split ↦
      c.has ⟨category, ⟨split, s.stop⟩⟩
    splits.flatMap fun split ↦
      (c.partialMatches rule s.start (rule.arity - 1) split).map
        (· ++ [⟨category, ⟨split, s.stop⟩⟩])

/-- Records what a rule of two or more symbols matches over the span, and counts it. A rule that
has more symbols than the span has tokens is passed over. -/
def recordRule (c : Chart) (s : Span) (found : List Node × Nat) (rule : Rule) : List Node × Nat :=
  if rule.arity < 2 || s.width < rule.arity then found
  else match c.wholeMatches rule s with
    | [] => found
    | sequences =>
      (Node.record rule.lhs (sequences.map (⟨rule, ·⟩)) found.1, found.2 + sequences.length)

/-- Where the last of the first `dot` symbols of a rule may start so that they match the span, when
`nodes` are those of the span itself. -/
def newSplits (c : Chart) (nodes : List Node) (s : Span) (rule : Rule) (dot : Nat) : List Nat :=
  match rule.rhs[dot - 1]? with
  | none => []
  | some category =>
    if dot ≤ 1 then
      if Node.has nodes category then [s.start] else []
    else (candidates s dot).filter fun split ↦
      c.has ⟨category, ⟨split, s.stop⟩⟩ && (c.splits? rule (dot - 1) ⟨s.start, split⟩).isSome

/-- The entries for the partial matches of a rule over the span. A partial match ends before the
rule does and has no more symbols than the span has tokens; what matches nowhere gets no entry. -/
def partialsOf (c : Chart) (nodes : List Node) (s : Span) (rule : Rule) :
    List ((Nat × Nat) × List Nat) :=
  let dots := List.range' 1 (min rule.arity (s.width + 1) - 1)
  (dots.map fun dot ↦ ((rule.id, dot), c.newSplits nodes s rule dot)).filter fun entry ↦
    !entry.2.isEmpty

end Readings.Chart
