import StackCalc.Command.Files
import StackCalc.Number.Integer
import StackCalc.Text.Lines

/-!
What commands read and what they leave behind: input from a file or from standard input, text on standard output,
messages, files and an exit status.
-/

namespace StackCalc.Command

/-- Where a command reads its input. -/
inductive Input where
  | standard
  | file (path : String)
  /-- A file was asked for and its path left empty. -/
  | unnamed
deriving DecidableEq, Repr

namespace Input

/-- The input of some path; a dash stands for standard input. -/
def ofPath (path : String) : Input :=
  if path = "-" then standard else file path

/-- The text of an input, every line end as a line feed. -/
def read {κ : Type} [DecidableEq κ] (stdin : String) (f : Files κ) : Input → Except PathError String
  | standard => .ok (Text.withLineFeeds stdin)
  | file path => (f.read path).map Text.withLineFeeds
  | unnamed => .error .noPath

end Input

/-- What breaks a command off: a path that it cannot read or write, or an integer with too many digits. -/
inductive Fault where
  | path (error : PathError)
  | digits (error : DigitError)
deriving DecidableEq, Repr

def Fault.message : Fault → String
  | path error => error.message
  | digits error => error.message

/-- How a command ends: with an exit status, or broken off at a fault. -/
inductive Ending where
  | exit (status : Nat)
  | broken (fault : Fault)
deriving DecidableEq, Repr

/-- What a command has to say: how it ends, standard output and messages, and a file to be written. -/
structure Outcome where
  ending : Ending := .exit 0
  stdout : String := ""
  stderr : String := ""
  write : Option (String × String) := none
deriving DecidableEq, Repr

namespace Outcome

/-- A failure with a report after what was logged. -/
def failure (log : String) : Report → Outcome
  | .ok message => { ending := .exit 1, stderr := log ++ message ++ "\n" }
  | .error error => { ending := .broken (.digits error), stderr := log }

/-- A failure to read the arguments, with a reminder of how the command is used. -/
def misuse (command usage message : String) : Outcome :=
  { ending := .exit 2, stderr := usage ++ command ++ ": error: " ++ message ++ "\n" }

/-- The failure of a command whose input cannot be read. A file that is not there is reported; any other path at
    fault breaks the command off. -/
def unreadable (command : String) : PathError → Outcome
  | .notFound path => failure "" (.ok ("[" ++ command ++ "] Error: Input file not found: " ++ Text.quoted path))
  | error => { ending := .broken (.path error) }

end Outcome

/-- What a command leaves behind. -/
structure Result (κ : Type) where
  ending : Ending
  stdout : String
  stderr : String
  files : Files κ

/-- Carries an outcome out. -/
def Outcome.commit {κ : Type} [DecidableEq κ] (o : Outcome) (f : Files κ) : Result κ :=
  match o.write with
  | none => { ending := o.ending, stdout := o.stdout, stderr := o.stderr, files := f }
  | some (path, text) =>
    match f.write path text with
    | .ok written => { ending := o.ending, stdout := o.stdout, stderr := o.stderr, files := written }
    | .error error => { ending := .broken (.path error), stdout := o.stdout, stderr := o.stderr, files := f }

end StackCalc.Command
