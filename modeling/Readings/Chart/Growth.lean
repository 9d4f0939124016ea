import Readings.Chart.Matching
import Readings.Chart.Unary

/-!
Growing a chart, width by width. The cell over a span holds the terminals of a single token, then
what long rules match from narrower spans, then the closure under unary rules; last come the partial
matches that wider spans will build on. Cells of one width do not depend on each other.
-/

namespace Readings.Chart

/-- The terminals that a span of one token can be read as. -/
def terminalNodes (g : Grammar) (tokens : List String) (s : Span) : List Node :=
  if s.width = 1 then
    match tokens[s.start]? with
    | some token => (g.lexicon.categoriesOf token).map (⟨·, []⟩)
    | none => []
  else []

/-- The cell over a span, as the cells of narrower spans determine it. -/
def cellOver (g : Grammar) (tokens : List String) (c : Chart) (s : Span) : Cell :=
  let (matched, long) := g.rules.foldl (c.recordRule s) (terminalNodes g tokens s, 0)
  let (nodes, unary) := Unary.closure s (g.rules.filter (·.isUnary)) matched
  let partials := g.rules.flatMap (c.partialsOf nodes s)
  { nodes := nodes.map Node.sort
    partials
    steps := long + unary + (partials.flatMap (·.2)).length }

def extend (g : Grammar) (tokens : List String) (c : Chart) (width : Nat) : Chart :=
  let spans := Span.ofSentenceWidth tokens.length width
  (spans.map fun s ↦ (s, cellOver g tokens c s)).foldl (fun c p ↦ c.insert p.1 p.2) c

def upTo (g : Grammar) (tokens : List String) : Nat → Chart
  | 0 => {}
  | width + 1 => extend g tokens (upTo g tokens width) (width + 1)

end Readings.Chart
