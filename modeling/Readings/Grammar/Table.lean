import Std.Data.TreeMap

/-!
The tables that a grammar is made of. A name is given a symbol when it is first met; from then on
the symbol stands for it and is told apart from others by its number. Rules are numbered as they are
declared and found by the symbols that head them. Words are found from both sides, by their token
and by their category.
-/

namespace Readings

/-- Puts a value behind those that a key has. -/
def putUnder {κ α : Type} [Ord κ] (m : Std.TreeMap κ (List α)) (k : κ) (x : α) :
    Std.TreeMap κ (List α) :=
  m.insert k (m.getD k [] ++ [x])

/-- A terminal is matched against tokens, a nonterminal is expanded by rules. -/
inductive Kind where
  | terminal
  | nonterminal
  deriving DecidableEq, Inhabited

structure Symbol where
  id : Nat
  name : String
  kind : Kind
  deriving DecidableEq, Inhabited

def Symbol.isTerminal (s : Symbol) : Bool := s.kind == .terminal

/-- The symbols are numbered by their places in `symbols`. -/
structure SymbolTable where
  symbols : List Symbol := []
  names : Std.TreeMap String Symbol := {}
  deriving Inhabited

namespace SymbolTable

/-- The symbol of a name. A name that has one keeps it, whatever kind is asked for. -/
def intern (t : SymbolTable) (name : String) (kind : Kind) : SymbolTable × Symbol :=
  match t.names[name]? with
  | some s => (t, s)
  | none =>
    let s : Symbol := ⟨t.symbols.length, name, kind⟩
    (⟨t.symbols ++ [s], t.names.insert name s⟩, s)

def internAll (t : SymbolTable) : List (String × Kind) → SymbolTable × List Symbol
  | [] => (t, [])
  | (name, kind) :: rest =>
    let (t, s) := t.intern name kind
    let (t, symbols) := t.internAll rest
    (t, s :: symbols)

end SymbolTable

/-- A production replaces the category `lhs` by the sequence `rhs`. -/
structure Production where
  lhs : String
  rhs : List String
  deriving DecidableEq, Inhabited

instance : ToString Production := ⟨fun p ↦ p.lhs ++ " -> " ++ " ".intercalate p.rhs⟩

/-- A rule is a production that carries its place in the order of declaration. -/
structure Rule extends Production where
  id : Nat
  deriving DecidableEq, Inhabited

namespace Rule

def arity (r : Rule) : Nat := r.rhs.length

def isUnary (r : Rule) : Bool := r.arity == 1

instance : ToString Rule := ⟨fun r ↦ toString r.toProduction⟩

end Rule

/-- The rules are numbered by their places in `rules`. -/
structure RuleTable where
  rules : List Rule := []
  /-- By the number of a symbol, the numbers of the rules that it heads. -/
  byLhs : Std.TreeMap Nat (List Nat) := {}
  deriving Inhabited

namespace RuleTable

/-- The rules for a symbol in the order of declaration. -/
def rulesFor (t : RuleTable) (lhs : Symbol) : List Rule :=
  (t.byLhs.getD lhs.id []).filterMap (t.rules[·]?)

def push (t : RuleTable) (lhs : Symbol) (p : Production) : RuleTable where
  rules := t.rules ++ [⟨p, t.rules.length⟩]
  byLhs := putUnder t.byLhs lhs.id t.rules.length

end RuleTable

/-- A token read as a lexical category. -/
structure LexicalEntry where
  token : String
  category : String
  deriving DecidableEq, Hashable, Inhabited

structure WordTable where
  byToken : Std.TreeMap String (List Symbol) := {}
  /-- By the number of a terminal, its tokens. -/
  byTerminal : Std.TreeMap Nat (List String) := {}
  deriving Inhabited

namespace WordTable

/-- The terminals that a token can be read as, in the order of declaration. -/
def terminalsFor (t : WordTable) (token : String) : List Symbol := t.byToken.getD token []

def wordsOf (t : WordTable) (terminal : Symbol) : List String := t.byTerminal.getD terminal.id []

/-- A word that is declared again is passed over. -/
def insert (t : WordTable) (token : String) (terminal : Symbol) : WordTable :=
  if (t.terminalsFor token).any (·.id == terminal.id) then t
  else ⟨putUnder t.byToken token terminal, putUnder t.byTerminal terminal.id token⟩

end WordTable

end Readings
