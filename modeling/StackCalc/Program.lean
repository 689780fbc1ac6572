import StackCalc.Instr

/-!
Programs: instructions in order. A program can be written as text with one instruction a line, or listed with
positions and depths of the stack.
-/

namespace StackCalc

abbrev Program (α : Type) := List (Instr α)

namespace Program

/-- The text of a program, every line ended by a line feed. -/
def text (p : Program Float) : Except DigitError String :=
  (p.mapM fun (i : Instr Float) => i.text.map (· ++ "\n")).map String.join

/-- The declared names in order. -/
def symbols {α : Type} (p : Program α) : List String :=
  p.filterMap fun
    | .declare name => some name
    | _ => none

/-- The depth of the stack before each instruction, if it is `depth` before the first. -/
def depthsFrom {α : Type} (depth : Int) : Program α → List Int
  | [] => []
  | i :: rest => depth :: depthsFrom (depth + i.effect) rest

/-- The line of a listing: the position of an instruction, the depth of the stack before it, and its text. -/
def entry (position : Nat) (depth : Int) (i : Instr Float) : Except DigitError String := do
  return toString position ++ " [" ++ (← Number.write depth) ++ "] " ++ (← i.text)

/-- One line for each instruction. -/
def listing (p : Program Float) : Except DigitError String :=
  ((p.zip (depthsFrom 0 p)).zipIdx.mapM fun ((i, depth), position) => entry position depth i).map
    ("\n".intercalate ·)

end Program

end StackCalc
