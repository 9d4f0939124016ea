import Readings.GrammarFile.Load
import Readings.Grammar.Derivation
import Readings.Tree.Parse
import Readings.Meaning
import Readings.Meaning.Model
import Readings.Meaning.Extensional
import Readings.Generation.Sentence
import Readings.Command.Run
import Readings.Main
import Readings.Proofs.Forest.Extension
import Readings.Proofs.Forest.Locality
import Readings.Proofs.Forest.Reordering
import Readings.Proofs.Generation.Language
import Readings.Proofs.Chart.Recorded
import Readings.Proofs.Chart.Bounds
import Readings.Proofs.Chart.Schedule
import Readings.Proofs.Forest.Limit
import Readings.Proofs.Forest.Size
import Readings.Proofs.Grammar.Representation
import Readings.Proofs.Meaning.Typing
import Readings.Proofs.GrammarFile.Line
import Readings.Proofs.GrammarFile.Load
import Readings.Proofs.GrammarFile.Literal
import Readings.Proofs.Tree.Postorder
import Readings.Proofs.Meaning.Coverage
import Readings.Proofs.Command.Echo
import Readings.Proofs.Tree.Height
import Readings.Proofs.Generation.Layout
import Readings.Proofs.Generation.Depth
import Readings.Proofs.Generation.Termination
import Readings.Proofs.Generation.Overflow
import Readings.Proofs.Grammar.Outcome
import Readings.Proofs.Tree.Brackets
import Readings.Proofs.Meaning.Table
import Readings.Proofs.GrammarFile.Writing
import Readings.Proofs.Meaning.Exchange
import Readings.Proofs.GrammarFile.Closed
import Readings.Proofs.GrammarFile.Layout
import Readings.Proofs.Forest.UnaryCycle
import Readings.Proofs.Chart.Division
import Readings.Proofs.Forest.Calls
import Readings.Proofs.Forest.Catalan
import Readings.Proofs.Chart.Closure
import Readings.Proofs.GrammarFile.Blame
