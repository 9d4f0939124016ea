import Readings.Chart.Growth

/-!
Forests: the finished chart of a sentence. A forest holds every derivation of every part of the
sentence, with common parts stored once.
-/

namespace Readings

structure Forest where
  grammar : Grammar
  tokens : List String
  chart : Chart

namespace Forest

def node? (f : Forest) (k : Constituent) : Option Node := f.chart.node? k

/-- The nodes of a forest in the order in which they are found: by width, then by start, then in
the order of their cell. -/
def nodes (f : Forest) : List (Constituent × Node) :=
  (Span.ofSentence f.tokens.length).flatMap fun s ↦
    (f.chart.cell s).nodes.map fun n ↦ (⟨n.category, s⟩, n)

def size (f : Forest) : Nat := f.nodes.length

def applications (f : Forest) : List Application := f.nodes.flatMap (·.2.applications)

/-- The whole sentence as a constituent, if `start` is a nonterminal and derives the sentence. -/
def root? (f : Forest) (start : String) : Option Constituent :=
  if f.grammar.isNonterminal start then
    match Span.ofBounds? 0 f.tokens.length with
    | some s => if f.chart.has ⟨start, s⟩ then some ⟨start, s⟩ else none
    | none => none
  else none

end Forest

end Readings
