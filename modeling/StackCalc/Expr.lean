import StackCalc.Number.Display
import StackCalc.Operator

/-!
Expressions, and two ways to write them: an outline with one node a line, and source text with brackets around
every operator.
-/

namespace StackCalc

inductive Expr (α : Type) where
  /-- A name whose value is given when the expression is evaluated. -/
  | symbol (name : String)
  | number (value : α)
  | binary (op : Operator) (left right : Expr α)
deriving BEq, DecidableEq, Repr

namespace Expr

/-- The number of nodes. -/
def size {α : Type} : Expr α → Nat
  | symbol _ => 1
  | number _ => 1
  | binary _ left right => left.size + right.size + 1

/-- The number of nodes of some expressions. -/
def sizes : List (Nat × Expr Float) → Nat
  | [] => 0
  | (_, e) :: rest => e.size + sizes rest

/-- The lines of the outlines of some expressions, each with its depth, one expression after the other. -/
def outlineLines (indent : String) : List (Nat × Expr Float) → List String
  | [] => []
  | (depth, e) :: rest =>
    let margin := String.join (List.replicate depth indent)
    match e with
    | symbol name => (margin ++ "Symbol(" ++ name ++ ")") :: outlineLines indent rest
    | number value => (margin ++ "Number(" ++ Number.display value ++ ")") :: outlineLines indent rest
    | binary op left right =>
      (margin ++ op.heading) :: outlineLines indent ((depth + 1, left) :: (depth + 1, right) :: rest)
termination_by pending => sizes pending
decreasing_by
  · simp [sizes, size]
  · simp [sizes, size]
  · simp only [sizes, size]; omega

/-- One line for each node, operands below their operator and indented one step further. -/
def outline (e : Expr Float) (indent : String := " ") : String :=
  "\n".intercalate (outlineLines indent [(0, e)])

/-- Source text with brackets around every operator. -/
def source : Expr Float → String
  | symbol name => name
  | number value => Number.source value
  | binary op left right => "(" ++ left.source ++ " " ++ op.sign ++ " " ++ right.source ++ ")"

end Expr

end StackCalc
