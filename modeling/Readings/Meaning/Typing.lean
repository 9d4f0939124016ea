import Readings.Meaning.Extensional

/-!
What trees mean, said without evaluating them. Every word has a type and a sense of that type. A
node over one tree means what the tree means; a node over two trees, of which one stands for a
function and the other for an entity, means what the function is at the entity. Nothing else has a
type.
-/

namespace Readings

inductive Ty where
  | entity
  | truth
  /-- From entities to what is of the type of the result. -/
  | function (result : Ty)
  deriving DecidableEq, Inhabited

namespace Ty

/-- What there is of a type: entities by their names, propositions, and families over entities. -/
def Sense : Ty → Type
  | entity => String
  | truth => Prop
  | function result => String → result.Sense

/-- The value is of the kind that the type asks for. -/
def Admits : Ty → Denotation → Prop
  | entity, .entity _ | truth, .truth _ | function _, .function _ => True
  | _, _ => False

end Ty

namespace Extensional

namespace Entry

def type? : Entry → Option Ty
  | entity _ _ | denotes _ (.entity _) => some .entity
  | predicate _ _ => some (.function .truth)
  | relation _ _ => some (.function (.function .truth))
  | denotes _ (.truth _) => some .truth
  | denotes _ (.function _) => none

/-- A predicate is membership, a relation is membership of the pair of subject and object, and it is
the object that comes first. -/
inductive Means : Entry → (τ : Ty) → τ.Sense → Prop
  | entity {token name : String} : Means (.entity token name) .entity name
  | predicate {token : String} {members : List String} :
      Means (.predicate token members) (.function .truth) fun x ↦ x ∈ members
  | relation {token : String} {pairs : List (String × String)} :
      Means (.relation token pairs) (.function (.function .truth))
        fun object subject ↦ (subject, object) ∈ pairs
  | namedEntity {token name : String} : Means (.denotes token (.entity name)) .entity name
  | truth {token : String} {value : Bool} :
      Means (.denotes token (.truth value)) .truth (value = true)

end Entry

/-- What was said last of a word. -/
def lastSaid? (entries : List Entry) (token : String) : Option Entry :=
  entries.reverse.find? (·.token == token)

inductive HasType (entries : List Entry) : Tree → Ty → Prop
  | leaf {terminal token : String} {position : Nat} {e : Entry} {τ : Ty}
      (said : lastSaid? entries token = some e) (type : e.type? = some τ) :
      HasType entries (.leaf terminal token position) τ
  | only {rule : Rule} {span : Span} {t : Tree} {τ : Ty} (below : HasType entries t τ) :
      HasType entries (.node rule span [t]) τ
  | functionLeft {rule : Rule} {span : Span} {left right : Tree} {τ : Ty}
      (function : HasType entries left (.function τ)) (argument : HasType entries right .entity) :
      HasType entries (.node rule span [left, right]) τ
  | functionRight {rule : Rule} {span : Span} {left right : Tree} {τ : Ty}
      (argument : HasType entries left .entity) (function : HasType entries right (.function τ)) :
      HasType entries (.node rule span [left, right]) τ

inductive Means (entries : List Entry) : Tree → (τ : Ty) → τ.Sense → Prop
  | leaf {terminal token : String} {position : Nat} {e : Entry} {τ : Ty} {s : τ.Sense}
      (said : lastSaid? entries token = some e) (sense : e.Means τ s) :
      Means entries (.leaf terminal token position) τ s
  | only {rule : Rule} {span : Span} {t : Tree} {τ : Ty} {s : τ.Sense}
      (below : Means entries t τ s) : Means entries (.node rule span [t]) τ s
  | functionLeft {rule : Rule} {span : Span} {left right : Tree} {τ : Ty}
      {f : String → τ.Sense} {name : String} (function : Means entries left (.function τ) f)
      (argument : Means entries right .entity name) :
      Means entries (.node rule span [left, right]) τ (f name)
  | functionRight {rule : Rule} {span : Span} {left right : Tree} {τ : Ty}
      {f : String → τ.Sense} {name : String} (argument : Means entries left .entity name)
      (function : Means entries right (.function τ) f) :
      Means entries (.node rule span [left, right]) τ (f name)

end Extensional

end Readings
