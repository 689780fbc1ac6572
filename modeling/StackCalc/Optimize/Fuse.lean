import StackCalc.Optimize.Draft

/-!
Fusing operators: an associative operator takes over the operands of every equal operator that produced one of its
own operands, so that `add 2 … add 2` becomes `add 3`. Merging does the same for neighbours only, and does not need
to know the stack.
-/

namespace StackCalc

namespace Draft

variable {α : Type}

/-- Takes over the operands of the producer at a position, if it is the operator `op`; `extra` counts operands. -/
def absorb (op : Operator) : Draft α × Nat → Option Nat → Draft α × Nat
  | (d, extra), some position =>
    match d.code[position]? with
    | some (.apply o) => if o.operator = op then (d.revise position .nop, extra + o.extra) else (d, extra)
    | _ => (d, extra)
  | (d, extra), none => (d, extra)

/-- One step of fusing. Positions of associative operators are remembered. -/
def fuseStep (d : Draft α) : Instr α → Option (Draft α)
  | .apply o => do
    let (operands, rest) ← pop? o.arity d.stack
    if o.isFusible then
      let (d, extra) := operands.foldl (absorb o.operator) (d, o.extra)
      return d.remember (.apply (o.withExtra extra)) rest
    else
      return d.produce (.apply o) rest
  | .push value => some (d.produce (.push value) d.stack)
  | .fetch name => some (d.produce (.fetch name) d.stack)
  | i => some (d.write i)

/-- One step of merging: an associative operator right after an equal one takes over its operands. -/
def mergeStep (d : Draft α) : Instr α → Draft α
  | .apply o =>
    match d.code.back? with
    | some (.apply before) =>
      if o.isFusible && before.operator == o.operator then
        (d.revise (d.code.size - 1) .nop).write (.apply (o.withExtra (o.extra + before.extra)))
      else d.write (.apply o)
    | _ => d.write (.apply o)
  | i => d.write i

end Draft

namespace Program

variable {α : Type}

/-- Fuses equal associative operators along the stack. -/
def fuse (p : Program α) : Program α :=
  redraft Draft.fuseStep p

/-- Fuses equal associative operators that stand next to each other. -/
def merge (p : Program α) : Program α :=
  (p.foldl Draft.mergeStep {}).program

end Program

end StackCalc
