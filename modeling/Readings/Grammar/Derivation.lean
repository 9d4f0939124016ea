import Readings.Grammar.Basic

/-!
What a grammar derives: a sequence of categories derives a sequence of tokens if each terminal of it
is read off a token and each nonterminal is expanded by a rule. A single category `X` derives what
`[X]` derives. Nothing is said here of how derivations are found.
-/

namespace Readings.Grammar

/-- The categories derive the tokens, one after another from left to right. -/
inductive Derives (g : Grammar) : (categories tokens : List String) → Prop
  | nil : Derives g [] []
  | token {token category : String} {rest tokens : List String}
      (entry : ⟨token, category⟩ ∈ g.lexicon.entries) (tail : Derives g rest tokens) :
      Derives g (category :: rest) (token :: tokens)
  | rule {rule : Rule} {rest first tokens : List String} (mem : rule ∈ g.rules)
      (head : Derives g rule.rhs first) (tail : Derives g rest tokens) :
      Derives g (rule.lhs :: rest) (first ++ tokens)

namespace Derives

variable {g : Grammar}

theorem append {cs ds ts us : List String} (h : Derives g cs ts) (h' : Derives g ds us) :
    Derives g (cs ++ ds) (ts ++ us) := by
  induction h with
  | nil => exact h'
  | token entry _ ih => exact .token entry ih
  | rule mem head _ _ ih =>
    rw [List.append_assoc]
    exact .rule mem head ih

end Derives

end Readings.Grammar
