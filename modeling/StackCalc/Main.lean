import StackCalc.Command.Compile
import StackCalc.Command.Evaluate

/-!
The command line. The program is `rpn` if it is called by that name, and `rpnc` otherwise.
-/

namespace StackCalc.Command

/-- The text of an input. Faults of a path other than a missing file are left to the system to report. -/
def Input.fetch : Input → IO (Except PathError String)
  | .standard => return .ok (Text.withLineFeeds (← (← IO.getStdin).readToEnd))
  | .file path => do
    try return .ok (Text.withLineFeeds (← IO.FS.readFile path))
    catch
      | .noFileOrDirectory .. => return .error (.notFound path)
      | error => throw error
  | .unnamed => return .error .noPath

/-- Shows an outcome and writes its file. -/
def Outcome.deliver (o : Outcome) : IO UInt32 := do
  IO.eprint o.stderr
  IO.print o.stdout
  if let some (path, text) := o.write then IO.FS.writeFile path text
  match o.ending with
  | .exit status => return status.toUInt32
  | .broken fault =>
    IO.eprintln fault.message
    return 1

end StackCalc.Command

open StackCalc.Command

def main (words : List String) : IO UInt32 := do
  let name := (← IO.appPath).fileName.getD ""
  if name = "rpn" then
    match Evaluate.settings .present words with
    | .error outcome => outcome.deliver
    | .ok s => (s.outcome (← s.input.fetch)).deliver
  else
    match Compile.settings .present words with
    | .error outcome => outcome.deliver
    | .ok s => (s.outcome (← s.input.fetch)).deliver
