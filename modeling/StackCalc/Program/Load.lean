import StackCalc.Program
import StackCalc.Text.Quoted

/-!
Loading a program from its text, line by line. A loaded stream knows for each instruction how many characters
were read up to the end of its line, and it ends either with the text or at the first line that is no instruction.
-/

namespace StackCalc

/-- Why a line cannot be loaded. -/
inductive LoadError where
  /-- A line that is no instruction, and its number. -/
  | malformed (text : String) (line : Nat)
  /-- A number of operands with too many digits, which no report is made of. -/
  | digits (error : DigitError)
deriving DecidableEq, Repr

def LoadError.message : LoadError → Report
  | malformed text line =>
    .ok ("[LoadError] Line " ++ toString line ++ ": " ++ Text.quoted text
      ++ ": unrecognized or malformed instruction")
  | digits error => .error error

/-- Instructions in the order of their lines. `read` counts the characters of the text that were read. -/
inductive Loaded (α : Type) where
  | cons (instr : Instr α) (read : Nat) (rest : Loaded α)
  | fault (error : LoadError) (read : Nat)
  | done (read : Nat)
deriving Repr

namespace Loaded

/-- The instructions before the end or the fault. -/
def instrs {α : Type} : Loaded α → Program α
  | cons i _ rest => i :: rest.instrs
  | fault _ _ => []
  | done _ => []

/-- All instructions, if every line is one. -/
def toProgram {α : Type} : Loaded α → Except LoadError (Program α)
  | cons i _ rest => return i :: (← rest.toProgram)
  | fault error _ => .error error
  | done _ => .ok []

/-- The stream that begins with a line. Blank lines are skipped. -/
def entry (line : Nat) (text : List Char) (read : Nat) (rest : Loaded Float) : Loaded Float :=
  if text.all Text.isBlank then rest
  else match Instr.parse text with
    | .ok (some i) => .cons i read rest
    | .ok none => .fault (.malformed (String.ofList text) line) read
    | .error error => .fault (.digits error) read

/-- Loads the rest of a text from line `line` on, of which `latest` has been read, the latest character first. -/
def loadFrom (line : Nat) (latest : List Char) (read : Nat) : List Char → Loaded Float
  | [] => if latest.isEmpty then .done read else entry line latest.reverse read (.done read)
  | c :: rest =>
    if c = '\n' then entry line latest.reverse (read + 1) (loadFrom (line + 1) [] (read + 1) rest)
    else loadFrom line (c :: latest) (read + 1) rest

/-- Loads a program from its text. -/
def load (text : List Char) : Loaded Float :=
  loadFrom 1 [] 0 text

end Loaded

end StackCalc
