import Readings.Grammar.Table

/-!
Grammars: numbered rules over named categories, together with a lexicon that assigns tokens to
lexical categories. A category is referred to by its name.
-/

namespace Readings

/-- The words of a grammar together with the names of its symbols, so that words can be asked for
by the name of their category. -/
structure Lexicon extends WordTable where
  names : Std.TreeMap String Symbol := {}
  deriving Inhabited

namespace Lexicon

def categoriesOf (l : Lexicon) (token : String) : List String :=
  (l.terminalsFor token).map (·.name)

def tokensOf (l : Lexicon) (category : String) : List String :=
  match l.names[category]? with
  | some terminal => l.wordsOf terminal
  | none => []

def tokens (l : Lexicon) : List String := l.byToken.keys

def contains (l : Lexicon) (token : String) : Bool := l.byToken.contains token

def entries (l : Lexicon) : List LexicalEntry :=
  l.byToken.toList.flatMap fun (token, terminals) ↦ terminals.map fun s ↦ ⟨token, s.name⟩

/-- The positions of a sentence whose token has no entry. -/
def gaps (l : Lexicon) (tokens : List String) : List (Nat × String) :=
  (tokens.zipIdx.filter fun p ↦ !l.contains p.1).map fun p ↦ (p.2, p.1)

theorem mem_categoriesOf {l : Lexicon} {token category : String} :
    category ∈ l.categoriesOf token ↔ ⟨token, category⟩ ∈ l.entries := by
  simp only [categoriesOf, WordTable.terminalsFor, entries, List.mem_map, List.mem_flatMap,
    LexicalEntry.mk.injEq, Prod.exists, Std.TreeMap.mem_toList_iff_getElem?_eq_some,
    Std.TreeMap.getD_eq_getD_getElem?]
  cases ht : l.byToken[token]? with
  | none =>
    simp only [Option.getD_none, List.not_mem_nil, false_and, exists_false, false_iff]
    rintro ⟨token', terminals, hterminals, s, -, rfl, -⟩
    rw [ht] at hterminals
    cases hterminals
  | some terminals =>
    rw [Option.getD_some]
    constructor
    · rintro ⟨s, hs, rfl⟩
      exact ⟨token, terminals, ht, s, hs, rfl, rfl⟩
    · rintro ⟨token', terminals', hterminals, s, hs, rfl, rfl⟩
      obtain rfl := Option.some.inj (ht.symm.trans hterminals)
      exact ⟨s, hs, rfl⟩

end Lexicon

structure Grammar extends SymbolTable, RuleTable where
  start : String
  words : WordTable := {}
  deriving Inhabited

namespace Grammar

def symbol? (g : Grammar) (name : String) : Option Symbol := g.names[name]?

def isTerminal (g : Grammar) (name : String) : Bool := (g.symbol? name).any (·.kind == .terminal)

def isNonterminal (g : Grammar) (name : String) : Bool :=
  (g.symbol? name).any (·.kind == .nonterminal)

def terminals (g : Grammar) : List String :=
  (g.symbols.filter (·.isTerminal)).map (·.name)

def alternatives (g : Grammar) (lhs : String) : List Rule :=
  match g.symbol? lhs with
  | some s => g.rulesFor s
  | none => []

def rule? (g : Grammar) (p : Production) : Option Rule :=
  (g.alternatives p.lhs).find? (·.rhs == p.rhs)

def lexicon (g : Grammar) : Lexicon := ⟨g.words, g.names⟩

end Grammar

end Readings
