import StackCalc.Expr
import StackCalc.Program

/-!
The program of an expression: its names are declared in alphabetical order, then both operands of every operator are
computed before the operator is applied to them. A generator writes such programs, one expression after the other.
-/

namespace StackCalc

namespace Expr

variable {α : Type}

/-- Inserts a name into a sorted list without repetitions. -/
def insertName (name : String) : List String → List String
  | [] => [name]
  | other :: rest =>
    if name < other then name :: other :: rest
    else if name = other then other :: rest
    else other :: insertName name rest

/-- The names that occur in an expression, from left to right. -/
def occurrences : Expr α → List String
  | symbol name => [name]
  | number _ => []
  | binary _ left right => left.occurrences ++ right.occurrences

/-- The names of an expression, sorted and without repetitions. -/
def names (e : Expr α) : List String :=
  e.occurrences.foldr insertName []

/-- Instructions that push the value of an expression: both operands, then the operator. -/
def body : Expr α → Program α
  | symbol name => [.fetch name]
  | number value => [.push value]
  | binary op left right => left.body ++ right.body ++ [.apply (.binary op)]

/-- The program of an expression: its names are declared, then its value is computed. -/
def program (e : Expr α) : Program α :=
  e.names.map .declare ++ e.body

end Expr

/-- A generator of programs: the instructions that it has written for an expression and the names that it has met,
    sorted and without repetitions. -/
structure Generator (α : Type) where
  code : Array (Instr α) := #[]
  names : List String := []

namespace Generator

variable {α : Type}

/-- Writes the instructions that push the value of an expression, and notes its names. -/
def emit (g : Generator α) : Expr α → Generator α
  | .symbol name => { code := g.code.push (.fetch name), names := Expr.insertName name g.names }
  | .number value => { g with code := g.code.push (.push value) }
  | .binary op left right =>
    let g := (g.emit left).emit right
    { g with code := g.code.push (.apply (.binary op)) }

/-- Generates the program of an expression. The generator is cleared first, so that it can be used again. -/
def generate (g : Generator α) (e : Expr α) : Program α × Generator α :=
  let g := { g with code := #[], names := [] }.emit e
  (g.names.map .declare ++ g.code.toList, g)

end Generator

end StackCalc
