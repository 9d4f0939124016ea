import Readings.Generation.Choice
import Readings.Generation.Height
import Readings.Tree

/-!
Generating sentences at random. Down to a given depth any rule is chosen that can be completed into
words; below it only the rules of least height are, so that a recursive grammar gives finite
sentences all the same. What is generated is a parse tree, laid out over the sentence that it
yields.
-/

namespace Readings

inductive GenerateError where
  | unknownSymbol (name : String)
  | unproductive (name : String)
  deriving DecidableEq, Inhabited

def GenerateError.message : GenerateError → String
  | unknownSymbol name => s!"no symbol named `{name}`"
  | unproductive name => s!"`{name}` does not derive any sentence"

/-- What fails or gives a result, with choices made on the way. A failure keeps the state that the
choices have led to. -/
abbrev Choosing (σ : Type) := ExceptT GenerateError (StateM σ)

/-- A grammar prepared for generation; below `depth` levels, derivations take the shortest way. -/
structure Generator where
  grammar : Grammar
  heights : Heights
  depth : Nat
  deriving Inhabited

namespace Generator

def defaultDepth : Nat := 8

def ofGrammar (g : Grammar) (depth : Nat) : Generator := ⟨g, Heights.ofGrammar g, depth⟩

/-- The rules for a category that can be completed into words. -/
def productive (g : Generator) (category : String) : List Rule :=
  (g.grammar.alternatives category).filter fun rule ↦ (g.heights.ofRule? rule).isSome

/-- The rules for a category that begin its shallowest derivations. -/
def quickest (g : Generator) (category : String) : List Rule :=
  let lowest := ((g.productive category).filterMap g.heights.ofRule?).min?
  (g.productive category).filter fun rule ↦ g.heights.ofRule? rule == lowest

section Choosing

variable {σ : Type} (c : Chooser σ)

def oneOf {α : Type} (category : String) : List α → Choosing σ α
  | [] => throw (.unproductive category)
  | first :: rest => liftM (c.pick first rest)

/-- The trees for a sequence of categories, side by side. -/
def sequence (below : String → Nat → Choosing σ Tree) :
    List String → Nat → Choosing σ (List Tree)
  | [], _ => return []
  | category :: rest, position => do
    let tree ← below category position
    let trees ← sequence below rest tree.span.stop
    return tree :: trees

/-- A terminal becomes one of its words. -/
def word (g : Generator) (category : String) (position : Nat) : Choosing σ Tree := do
  let token ← oneOf c category (g.grammar.lexicon.tokensOf category)
  return .leaf category token position

/-- A nonterminal becomes the right-hand side of one of the rules. -/
def expand (category : String) (rules : List Rule) (below : String → Nat → Choosing σ Tree)
    (position : Nat) : Choosing σ Tree := do
  let rule ← oneOf c category rules
  let trees ← sequence below rule.rhs position
  let stop := (trees.getLast?.map (·.span.stop)).getD position
  return .node rule ⟨position, stop⟩ trees

/-- Nothing is built for a category that derives no words. -/
def guarded (g : Generator) (category : String) (build : Nat → Choosing σ Tree) :
    Nat → Choosing σ Tree :=
  if (g.heights.height? category).isSome then build
  else fun _ ↦ throw (.unproductive category)

/-- A tree of least height for a category that is at most `height` high. -/
def shortest (g : Generator) : (height : Nat) → String → Nat → Choosing σ Tree
  | 0, category => g.guarded category (g.word c category)
  | height + 1, category =>
    g.guarded category <|
      if g.grammar.isTerminal category then g.word c category
      else expand c category (g.quickest category) (shortest g height)

/-- A tree for a category, any tree for the first `levels` levels. -/
def spread (g : Generator) : (levels : Nat) → String → Nat → Choosing σ Tree
  | 0, category => g.shortest c ((g.heights.height? category).getD 0) category
  | levels + 1, category =>
    g.guarded category <|
      if g.grammar.isTerminal category then g.word c category
      else expand c category (g.productive category) (spread g levels)

def tree (g : Generator) (start : String) : Choosing σ Tree :=
  match g.grammar.symbol? start with
  | none => throw (.unknownSymbol start)
  | some _ => g.spread c g.depth start 0

def sentence (g : Generator) (start : String) : Choosing σ (List String) :=
  Tree.tokens <$> g.tree c start

end Choosing

end Generator

end Readings
