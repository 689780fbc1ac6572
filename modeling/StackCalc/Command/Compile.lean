import StackCalc.Command.Arguments
import StackCalc.Command.Outcome
import StackCalc.Number.Reading
import StackCalc.Pipeline

/-!
The command `rpnc`: it compiles an expression to the text of a program, or shows the tokens or the outline of the
expression.
-/

namespace StackCalc.Command

namespace Compile

/-- What is shown instead of the text of a program. -/
inductive Mode where
  | tokens
  | outline
  | listing
deriving DecidableEq, Repr

inductive Choice where
  | help
  | output
  | level
  | optimize
  | mode (mode : Mode)
  | debug
deriving DecidableEq, Repr

/-- The switch of a mode. -/
def modeSwitch : Mode → Switch Choice
  | .tokens => { id := .mode .tokens, spellings := ["-t", "--tokens"] }
  | .outline => { id := .mode .outline, spellings := ["-p", "--parse"] }
  | .listing => { id := .mode .listing, spellings := ["-l", "--listing"] }

def switches : List (Switch Choice) :=
  [{ id := .help, spellings := ["-h", "--help"] },
   { id := .output, spellings := ["-o", "--output"], takesValue := true },
   { id := .level, spellings := ["--opt-level"], takesValue := true },
   { id := .optimize, spellings := ["-O"] },
   modeSwitch .tokens,
   modeSwitch .outline,
   modeSwitch .listing,
   { id := .debug, spellings := ["--debug"] }]

structure Settings where
  output : Option String := none
  level : Level := .number 0
  mode : Option Mode := none
  debug : Bool := false
  input : Input := .standard
deriving DecidableEq, Repr

/-- The levels that `--opt-level` accepts. -/
def levels : List Int := [0, 1]

def usage : String :=
  "usage: rpnc [-h] [-o OUTPUT] [--opt-level \x7b0,1\x7d] [-O] [-t | -p | -l] [--debug]\n" ++
  "            [input]\n"

def help : String :=
  usage ++
  "\n" ++
  "Compile an arithmetic expression to stack-machine bytecode\n" ++
  "\n" ++
  "positional arguments:\n" ++
  "  input                 File holding the expression (default: stdin)\n" ++
  "\n" ++
  "options:\n" ++
  "  -h, --help            show this help message and exit\n" ++
  "  -o OUTPUT, --output OUTPUT\n" ++
  "                        Path for the generated bytecode (default: stdout)\n" ++
  "  --opt-level \x7b0,1\x7d     Optimization level: 0 = none, 1 = all passes (default:\n" ++
  "                        0)\n" ++
  "  -O                    Optimize; same as --opt-level 1\n" ++
  "  -t, --tokens          Tokenize only\n" ++
  "  -p, --parse           Parse only and print the AST\n" ++
  "  -l, --listing         Prefix each instruction with its position and stack\n" ++
  "                        depth\n" ++
  "  --debug               Print compilation phase info to stderr\n"

def misuse (error : UsageError) : Outcome :=
  .misuse "rpnc" usage error.message

/-- Carries out one switch. Modes exclude each other, and the last level wins. -/
def take (s : Settings) (switch : Switch Choice) (value : Option String) : Except Outcome Settings :=
  match switch.id with
  | .help => .error { stdout := help }
  | .output => .ok { s with output := value }
  | .level =>
    match value with
    | none => .ok { s with level := .empty }
    | some text =>
      match Number.readInt? text with
      | none => .error (misuse (.invalidInteger switch.name text))
      | some n =>
        if n ∈ levels then .ok { s with level := .number n }
        else .error (misuse (.invalidChoice switch.name n levels))
  | .optimize => .ok { s with level := .number 1 }
  | .mode mode =>
    match s.mode with
    | some other =>
      if other = mode then .ok s else .error (misuse (.conflict switch.name (modeSwitch other).name))
    | none => .ok { s with mode := mode }
  | .debug => .ok { s with debug := true }

/-- Reads the arguments of the command; an outcome instead of settings ends it. -/
def settings (custom : Custom) (words : List String) : Except Outcome Settings := do
  let (s, operands) ← readArguments custom switches true misuse take {} words
  return { s with input := (operands.head?.map Input.ofPath).getD .standard }

/-- What the command makes of its input: the text to be written, with the log of the work. -/
def Settings.product (s : Settings) (source : List Char) : Noted (Except Report String) :=
  match s.mode with
  | some .tokens =>
    match Source.tokens source with
    | .ok lines => ⟨[], .ok (String.join (lines.map (· ++ "\n")))⟩
    | .error error => ⟨[], .error (.ok error.message)⟩
  | some .outline =>
    match Source.outline source with
    | .ok outline => ⟨[], .ok (outline ++ "\n")⟩
    | .error error => ⟨[], .error (.ok error.message)⟩
  | mode =>
    let format := if mode = some .listing then .listing else .text
    let work := Source.compileText s.level format source
    ⟨work.notes, work.result.mapError CompileError.message⟩

/-- The outcome for settings and the text of their input. Nothing is written unless all went well. -/
def Settings.outcome (s : Settings) (input : Except PathError String) : Outcome :=
  match input with
  | .error error => .unreadable "rpnc" error
  | .ok text =>
    let work := s.product text.toList
    let log := work.log s.debug
    match work.result with
    | .error report => .failure log report
    | .ok product =>
      match s.output with
      | none | some "" => { stdout := product, stderr := log }
      | some path => { stderr := log, write := some (path, product) }

/-- Runs the command. -/
def run {κ : Type} [DecidableEq κ] (custom : Custom) (words : List String) (stdin : String) (f : Files κ) :
    Result κ :=
  match settings custom words with
  | .error outcome => outcome.commit f
  | .ok s => (s.outcome (s.input.read stdin f)).commit f

end Compile

end StackCalc.Command
