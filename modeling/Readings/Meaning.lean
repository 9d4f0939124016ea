import Readings.Forest.Enumeration
import Readings.Forest.Reading
import Readings.Meaning.Interpretation

/-!
The meaning of a sentence: every derivation is enumerated, expanded into a tree and evaluated.
-/

namespace Readings

/-- The readings of a sentence, each with its value or its failure. Only the enumeration can fail
the whole. -/
def interpret {V : Type} (g : Grammar) (start : String) (tokens : List String)
    (m : Interpretation V) (b : Budget) : Except EnumerationError (List (Reading V)) :=
  (fun f ↦ m.evaluateEach (f.readings start)) <$> enumerate g start tokens b

end Readings
