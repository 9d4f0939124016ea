import Readings.Command.Run

/-!
The command line program.
-/

namespace Readings.Command

def contentOf (file : String) : IO (Except GrammarFile.ReadError ByteArray) := do
  try
    return .ok (← IO.FS.readBinFile file)
  catch
    | .noFileOrDirectory .. => return .error .notFound
    | e => return .error (.other (toString e))

def perform (arguments : List String) : IO Outcome := do
  match Arguments.ofList arguments with
  | .error e => return .misuse e
  | .ok a =>
    let content ← contentOf a.file
    let seed ← IO.rand 0 (UInt32.size - 1)
    let draws : Draws := ⟨.congruential (UInt32.ofNat seed), 0⟩
    return ((execute a content Draws.chooser).run draws).1

end Readings.Command

def main (arguments : List String) : IO UInt32 := do
  let outcome ← Readings.Command.perform arguments
  IO.print outcome.stdout
  IO.eprint outcome.stderr
  return UInt32.ofNat outcome.exit
