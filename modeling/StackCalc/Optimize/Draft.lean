import StackCalc.Program
import StackCalc.Stack

/-!
Drafts of a program under optimization. A pass reads a program once and writes a draft: the instructions so far,
some of them revised, and a simulated stack that remembers for each value which position of the draft produced it,
as far as the pass can make use of that. An instruction that is no longer needed becomes `nop` and keeps its
position until the pass has ended.
-/

namespace StackCalc

/-- The instructions written so far and, top first, the positions that produced the values on the stack. -/
structure Draft (α : Type) where
  code : Array (Instr α) := #[]
  stack : List (Option Nat) := []

namespace Draft

variable {α : Type}

/-- Writes an instruction that leaves the stack alone. -/
def write (d : Draft α) (i : Instr α) : Draft α :=
  { d with code := d.code.push i }

/-- Writes an instruction that pushes a value of no interest on the stack `stack`. -/
def produce (d : Draft α) (i : Instr α) (stack : List (Option Nat)) : Draft α :=
  { code := d.code.push i, stack := none :: stack }

/-- Writes an instruction that pushes a value on the stack `stack` and remembers its position. -/
def remember (d : Draft α) (i : Instr α) (stack : List (Option Nat)) : Draft α :=
  { code := d.code.push i, stack := some d.code.size :: stack }

/-- Replaces the instruction at a position. -/
def revise (d : Draft α) (position : Nat) (i : Instr α) : Draft α :=
  { d with code := d.code.setIfInBounds position i }

/-- Retires the instructions at some positions. -/
def retire (d : Draft α) (positions : List Nat) : Draft α :=
  positions.foldl (fun d position => d.revise position .nop) d

/-- The program that a draft stands for. -/
def program (d : Draft α) : Program α :=
  d.code.toList.filter fun i => !i.isNop

end Draft

/-- Writes a draft instruction by instruction. A step that lacks operands gives up the whole draft, and the program
    stays as it is. -/
def redraft {α : Type} (step : Draft α → Instr α → Option (Draft α)) (p : Program α) : Program α :=
  match p.foldlM step {} with
  | some draft => draft.program
  | none => p

end StackCalc
