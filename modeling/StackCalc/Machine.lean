import StackCalc.Arithmetic
import StackCalc.Program.Load
import StackCalc.Stack

/-!
The stack machine. It runs instructions in order, asks a resolver for the value of each declared name, and answers
with the one value that is left on the stack. A run also tells which names it asked for, also when it fails.
-/

namespace StackCalc

/-- Why a program has no value. -/
inductive RunError where
  | unbound (name : String)
  /-- An operation with more operands than the stack holds. -/
  | underflow (operation : Operation) (size : Nat)
  /-- The program ends with another number of values than one. -/
  | leftover (size : Nat)
deriving DecidableEq, Repr

def RunError.message : RunError → Report
  | unbound name => .ok ("[EvaluationError] " ++ name ++ ": symbol not bound")
  | underflow operation size =>
    operation.text.map fun text =>
      "[EvaluationError] " ++ text ++ ": stack underflow, " ++ toString size ++ " operand(s) available"
  | leftover size =>
    .ok ("[EvaluationError] evaluation stack has " ++ toString size ++ " value(s) but should have exactly 1")

/-- Where the values of names come from. -/
abbrev Resolver (α : Type) := String → Option α

/-- What a run asked for and what came of it. -/
structure Run (ε α : Type) where
  asked : List String
  result : Except ε α

/-- The machine between two instructions: the stack, top first, and the declared names, latest first. -/
structure Machine (α : Type) where
  stack : List α := []
  bound : List (String × α) := []

namespace Machine

variable {α : Type} (arithmetic : Arithmetic α) (resolve : Resolver α)

/-- The name that an instruction asks the resolver for. -/
def asks : Instr α → List String
  | .declare name => [name]
  | _ => []

/-- Replaces the operands on the stack by the result of an operation, if there are enough. -/
def reduce? (o : Operation) (stack : List α) : Option (List α) := do
  let (operands, rest) ← pop? o.arity stack
  let value ← combine? (arithmetic o.operator) operands
  return value :: rest

/-- Carries out one instruction. -/
def step (m : Machine α) : Instr α → Except RunError (Machine α)
  | .declare name =>
    match resolve name with
    | some value => .ok { m with bound := (name, value) :: m.bound }
    | none => .error (.unbound name)
  | .fetch name =>
    match m.bound.lookup name with
    | some value => .ok { m with stack := value :: m.stack }
    | none => .error (.unbound name)
  | .push value => .ok { m with stack := value :: m.stack }
  | .apply o =>
    match reduce? arithmetic o m.stack with
    | some stack => .ok { m with stack }
    | none => .error (.underflow o m.stack.length)
  | .nop => .ok m

/-- The value of a program that has come to its end. -/
def value (m : Machine α) : Except RunError α :=
  match m.stack with
  | [value] => .ok value
  | stack => .error (.leftover stack.length)

/-- Runs a program from a given state of the machine. -/
def run (m : Machine α) : Program α → Run RunError α
  | [] => ⟨[], m.value⟩
  | i :: rest =>
    match m.step arithmetic resolve i with
    | .error error => ⟨asks i, .error error⟩
    | .ok next =>
      let r := run next rest
      ⟨asks i ++ r.asked, r.result⟩

end Machine

/-- Runs a program from its beginning. -/
def Program.run {α : Type} (arithmetic : Arithmetic α) (resolve : Resolver α) (p : Program α) : Run RunError α :=
  Machine.run arithmetic resolve {} p

/-- Why the text of a program has no value. -/
inductive TextError where
  | load (error : LoadError)
  | run (error : RunError)
deriving DecidableEq, Repr

def TextError.message : TextError → Report
  | load error => error.message
  | run error => error.message

namespace Loaded

/-- Runs instructions while they are loaded, so that of two faults the first in the text is reported. The number
    is that of the characters read by then. -/
def runFrom {α : Type} (arithmetic : Arithmetic α) (resolve : Resolver α) (m : Machine α) :
    Loaded α → Run TextError α × Nat
  | cons i read rest =>
    match m.step arithmetic resolve i with
    | .error error => (⟨Machine.asks i, .error (.run error)⟩, read)
    | .ok next =>
      let r := runFrom arithmetic resolve next rest
      (⟨Machine.asks i ++ r.1.asked, r.1.result⟩, r.2)
  | fault error read => (⟨[], .error (.load error)⟩, read)
  | done read => (⟨[], m.value.mapError .run⟩, read)

/-- Runs a loaded program from its beginning. -/
def run {α : Type} (arithmetic : Arithmetic α) (resolve : Resolver α) (l : Loaded α) : Run TextError α × Nat :=
  l.runFrom arithmetic resolve {}

end Loaded

end StackCalc
