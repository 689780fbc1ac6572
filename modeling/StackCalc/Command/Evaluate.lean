import StackCalc.Command.Arguments
import StackCalc.Command.Outcome
import StackCalc.Number.Reading
import StackCalc.Pipeline

/-!
The command `rpn`: it evaluates the text of a program with names bound to numbers, or lists the declared names.
-/

namespace StackCalc.Command

/-- Binds names to numbers: words in pairs of a name and the text of its value. Pairs without a number are dropped,
    each with a warning. -/
def bindFrom (b : Bindings) : List String → Bindings × List String
  | [] => (b, [])
  | [name] => (b, [name ++ ": discarding symbol since value is missing"])
  | name :: text :: rest =>
    match Number.read? text with
    | some value => bindFrom (b.put name value) rest
    | none =>
      let (bindings, warnings) := bindFrom b rest
      (bindings, (name ++ " <- " ++ text ++ ": discarding symbol since value is malformed") :: warnings)

/-- The bindings that words stand for, and the warnings about them as lines of text. -/
def bind (words : List String) : Bindings × String :=
  let (bindings, warnings) := bindFrom [] words
  (bindings, String.join (warnings.map (· ++ "\n")))

namespace Evaluate

inductive Choice where
  | help
  | file
  | symbols
  | debug
deriving DecidableEq, Repr

def switches : List (Switch Choice) :=
  [{ id := .help, spellings := ["-h", "--help"] },
   { id := .file, spellings := ["-f", "--file"], takesValue := true },
   { id := .symbols, spellings := ["-s", "--symbols"] },
   { id := .debug, spellings := ["--debug"] }]

structure Settings where
  input : Input := .standard
  symbols : Bool := false
  debug : Bool := false
  pairs : List String := []
deriving DecidableEq, Repr

def usage : String :=
  "usage: rpn [-h] [-f FILE] [-s] [--debug] [SYM VAL ...]\n"

def help : String :=
  usage ++
  "\n" ++
  "Evaluate stack-machine bytecode and print the result\n" ++
  "\n" ++
  "positional arguments:\n" ++
  "  SYM VAL               Symbol/value pairs bound before evaluation\n" ++
  "\n" ++
  "options:\n" ++
  "  -h, --help            show this help message and exit\n" ++
  "  -f FILE, --file FILE  File holding the bytecode (default: stdin)\n" ++
  "  -s, --symbols         Print declared symbols only\n" ++
  "  --debug               Print symbol bindings and the result to stderr\n"

def misuse (error : UsageError) : Outcome :=
  .misuse "rpn" usage error.message

/-- Carries out one switch. -/
def take (s : Settings) (switch : Switch Choice) (value : Option String) : Except Outcome Settings :=
  match switch.id with
  | .help => .error { stdout := help }
  | .file => .ok { s with input := (value.map Input.ofPath).getD .unnamed }
  | .symbols => .ok { s with symbols := true }
  | .debug => .ok { s with debug := true }

/-- Reads the arguments of the command; an outcome instead of settings ends it. -/
def settings (custom : Custom) (words : List String) : Except Outcome Settings := do
  let (s, pairs) ← readArguments custom switches false misuse take {} words
  return { s with pairs }

/-- The outcome for settings and the text of their input. -/
def Settings.outcome (s : Settings) (input : Except PathError String) : Outcome :=
  match input with
  | .error error => .unreadable "rpn" error
  | .ok text =>
    if s.symbols then
      match ProgramText.symbols text.toList with
      | .error error => .failure "" error.message
      | .ok names => { stdout := String.join (names.map (· ++ "\n")) }
    else
      let (bindings, warnings) := bind s.pairs
      let work := ProgramText.evaluate bindings.resolver text.toList
      let log := warnings ++ work.log s.debug
      match work.result with
      | .error error => .failure log error.message
      | .ok value => { stdout := Number.display value ++ "\n", stderr := log }

/-- Runs the command. -/
def run {κ : Type} [DecidableEq κ] (custom : Custom) (words : List String) (stdin : String) (f : Files κ) :
    Result κ :=
  match settings custom words with
  | .error outcome => outcome.commit f
  | .ok s => (s.outcome (s.input.read stdin f)).commit f

end Evaluate

end StackCalc.Command
