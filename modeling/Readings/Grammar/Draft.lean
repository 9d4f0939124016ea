import Readings.Grammar.Basic

/-!
Drafts of grammars: declarations are collected by name and resolved into a grammar at the end.

A name that some word is declared for is a terminal, every other name is a nonterminal. A name may
be used without being defined; it is then a nonterminal that derives nothing. Names are given
symbols in the order in which they are met: the start symbol, the names in the rules, the categories
of the words. Building fails only on a category that both heads a rule and has words, on an empty
right-hand side and on a rule that is declared twice.
-/

namespace Readings.Grammar

inductive Declaration where
  | start (name : String)
  | rule (lhs : String) (rhs : List String)
  | word (token category : String)
  | words (category : String) (tokens : List String)
  /-- Each category `X` gets the rule `X -> X conjunction X`. -/
  | coordinate (categories : List String) (conjunction : String)
  deriving DecidableEq, Inhabited

structure Draft where
  start : String
  rules : List Production := []
  words : List LexicalEntry := []
  deriving DecidableEq, Inhabited

inductive BuildError where
  | emptyProduction (lhs : String)
  | repeatedRule (rule : Production)
  | mixedKind (name : String)
  deriving DecidableEq, Inhabited

def BuildError.message : BuildError → String
  | emptyProduction lhs => s!"rule for `{lhs}` has an empty right-hand side"
  | repeatedRule rule => s!"rule `{rule}` is declared more than once"
  | mixedKind name => s!"`{name}` heads a rule and is also a lexicon category"

namespace Draft

def declare (d : Draft) : Declaration → Draft
  | .start name => { d with start := name }
  | .rule lhs rhs => { d with rules := d.rules ++ [⟨lhs, rhs⟩] }
  | .word token category => { d with words := d.words ++ [⟨token, category⟩] }
  | .words category tokens => { d with words := d.words ++ tokens.map (⟨·, category⟩) }
  | .coordinate categories conjunction =>
    { d with rules := d.rules ++ categories.map fun c ↦ ⟨c, [c, conjunction, c]⟩ }

def ofDeclarations (start : String) (declarations : List Declaration) : Draft :=
  declarations.foldl declare { start }

/-- Some word is declared for the name. -/
def isCategory (d : Draft) (name : String) : Bool := d.words.any (·.category == name)

/-- Some rule is declared for the name. -/
def isHead (d : Draft) (name : String) : Bool := d.rules.any (·.lhs == name)

def kindOf (d : Draft) (name : String) : Kind :=
  if d.isCategory name && !d.isHead name then .terminal else .nonterminal

/-- The symbols and the rules of a draft as far as its rules have been looked at. -/
structure Resolution extends SymbolTable, RuleTable where
  /-- The rules by the numbers of their symbols. -/
  numbers : List (List Nat) := []
  deriving Inhabited

/-- Gives symbols to the names of a rule and adds the rule. It is the same as one before it if the
numbers of its symbols are. -/
def addRule (d : Draft) (r : Resolution) (p : Production) : Except BuildError Resolution :=
  if p.rhs.isEmpty then .error (.emptyProduction p.lhs)
  else
    let (table, lhs) := r.intern p.lhs .nonterminal
    let (table, rhs) := table.internAll (p.rhs.map fun c ↦ (c, d.kindOf c))
    let rule : Production := ⟨lhs.name, rhs.map (·.name)⟩
    let numbers := lhs.id :: rhs.map (·.id)
    if numbers ∈ r.numbers then .error (.repeatedRule rule)
    else .ok ⟨table, r.push lhs rule, r.numbers ++ [numbers]⟩

def addWord (tables : SymbolTable × WordTable) (w : LexicalEntry) : SymbolTable × WordTable :=
  let (symbols, terminal) := tables.1.intern w.category .terminal
  (symbols, tables.2.insert w.token terminal)

/-- A category that heads a rule is reported before any fault of a single rule. -/
def build (d : Draft) : Except BuildError Grammar :=
  match d.rules.find? fun p ↦ d.isCategory p.lhs with
  | some p => .error (.mixedKind p.lhs)
  | none => do
    let (table, start) := ({} : SymbolTable).intern d.start (d.kindOf d.start)
    let r ← d.rules.foldlM d.addRule ⟨table, {}, []⟩
    let (symbols, words) := d.words.foldl addWord (r.toSymbolTable, {})
    return ⟨symbols, r.toRuleTable, start.name, words⟩

end Draft

end Readings.Grammar
