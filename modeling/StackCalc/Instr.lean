import StackCalc.Number.Literal
import StackCalc.Operator
import StackCalc.Text.Blank

/-!
Instructions of the stack machine, and their text: a keyword and at most one argument, with blanks between them.
-/

namespace StackCalc

inductive Instr (α : Type) where
  /-- Asks for the value of a name. -/
  | declare (name : String)
  /-- Pushes the value of a declared name. -/
  | fetch (name : String)
  | push (value : α)
  /-- Replaces operands by the result of an operation. -/
  | apply (operation : Operation)
  | nop
deriving BEq, DecidableEq, Repr

namespace Instr

/-- The change of the stack's depth. -/
def effect {α : Type} : Instr α → Int
  | fetch _ | push _ => 1
  | apply o => 1 - o.arity
  | declare _ | nop => 0

def isNop {α : Type} : Instr α → Bool
  | nop => true
  | _ => false

/-- The instruction as one line of text. -/
def text : Instr Float → Except DigitError String
  | declare name => .ok ("sym " ++ name)
  | fetch name => .ok ("pushsym " ++ name)
  | push value => .ok ("push " ++ Literal.text value)
  | apply o => o.text
  | nop => .ok "nop"

/-- Reads a name: letters only. -/
def readName? (field : List Char) : Option String :=
  if !field.isEmpty && field.all Char.isAlpha then some (String.ofList field) else none

/-- Reads how many operands a variadic operator takes, as the number of operands beyond the first. There are at
    least two operands. -/
def readExtra (field : List Char) : Except DigitError (Option Nat) :=
  if Literal.isDigitRow field then
    (Number.readRow field).map fun
      | n + 2 => some (n + 1)
      | _ => none
  else .ok none

/-- Reads an operation from its keyword and arguments. -/
def readOperation (keyword : String) (arguments : List (List Char)) : Except DigitError (Option Operation) :=
  match Operator.ofKeyword? keyword with
  | none => .ok none
  | some op =>
    match arguments with
    | [] => .ok (if op.isVariadic then none else some (.binary op))
    | [argument] =>
      if op.isVariadic then (readExtra argument).map (Option.map (Operation.binary op).withExtra) else .ok none
    | _ => .ok none

/-- Reads an instruction from the fields of its line. -/
def ofFields : List (List Char) → Except DigitError (Option (Instr Float))
  | [] => .ok none
  | keyword :: arguments =>
    match String.ofList keyword, arguments with
    | "sym", [name] => .ok ((readName? name).map declare)
    | "pushsym", [name] => .ok ((readName? name).map fetch)
    | "push", [literal] => .ok ((Literal.read? literal).map push)
    | "nop", [] => .ok (some nop)
    | word, arguments => (readOperation word arguments).map (Option.map apply)

/-- Reads an instruction from a line of text, if the line is one. -/
def parse (line : List Char) : Except DigitError (Option (Instr Float)) :=
  ofFields (Text.fields line)

end Instr

end StackCalc
