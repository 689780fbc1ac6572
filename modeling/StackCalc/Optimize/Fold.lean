import StackCalc.Arithmetic
import StackCalc.Optimize.Draft

/-!
Folding literals: an operation on literals only becomes the literal of its result, and an associative operation with
other operands as well folds each run of literals among its operands. A result takes the place of its operands only
if it is representable, so that the text of the program still stands for the same numbers.
-/

namespace StackCalc

/-- The maximal runs of two or more entries that are present, after a run `current` that is under way. -/
def runsFrom {β : Type} (current : List β) : List (Option β) → List (List β)
  | [] => if 2 ≤ current.length then [current] else []
  | some x :: rest => runsFrom (current ++ [x]) rest
  | none :: rest => (if 2 ≤ current.length then [current] else []) ++ runsFrom [] rest

/-- The maximal runs of two or more entries that are present. -/
def literalRuns {β : Type} (entries : List (Option β)) : List (List β) :=
  runsFrom [] entries

/-- All entries, if all are present. -/
def allPresent? {β : Type} : List (Option β) → Option (List β)
  | [] => some []
  | none :: _ => none
  | some x :: rest => (allPresent? rest).map (x :: ·)

namespace Draft

variable {α : Type} (arithmetic : Arithmetic α) (representable : α → Bool)

/-- The literal that the instruction at a position pushes. -/
def literalAt? (d : Draft α) (position : Nat) : Option α :=
  match d.code[position]? with
  | some (.push value) => some value
  | _ => none

/-- The result of an operator on the literals at some positions, if it is representable. -/
def folded? (d : Draft α) (op : Operator) (positions : List Nat) : Option α := do
  let value ← combine? (arithmetic op) (← allPresent? (positions.map d.literalAt?))
  if representable value then some value else none

/-- Folds a run of literals into its first position; `extra` counts the operands that are left. -/
def foldRun (op : Operator) : Draft α × Nat → List Nat → Draft α × Nat
  | (d, extra), [] => (d, extra)
  | (d, extra), first :: others =>
    match d.folded? arithmetic representable op (first :: others) with
    | some value => ((d.revise first (.push value)).retire others, extra - others.length)
    | none => (d, extra)

/-- One step of folding. Positions of literals are remembered. -/
def foldStep (d : Draft α) : Instr α → Option (Draft α)
  | .apply o => do
    let (operands, rest) ← pop? o.arity d.stack
    match allPresent? operands with
    | some positions =>
      match d.folded? arithmetic representable o.operator positions with
      | some value => return (d.retire positions).remember (.push value) rest
      | none => return d.produce (.apply o) rest
    | none =>
      if o.isFusible then
        let (d, extra) := (literalRuns operands).foldl (foldRun arithmetic representable o.operator) (d, o.extra)
        return d.produce (.apply (o.withExtra extra)) rest
      else
        return d.produce (.apply o) rest
  | .push value => some (d.remember (.push value) d.stack)
  | .fetch name => some (d.produce (.fetch name) d.stack)
  | i => some (d.write i)

end Draft

/-- Replaces operations on literals by literals. -/
def Program.fold {α : Type} (arithmetic : Arithmetic α) (representable : α → Bool) (p : Program α) :
    Program α :=
  redraft (Draft.foldStep arithmetic representable) p

end StackCalc
