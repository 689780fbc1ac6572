import StackCalc.Optimize.Fold
import StackCalc.Optimize.Fuse

/-!
Optimizing in rounds. A round fuses, merges and folds; rounds follow each other until one of them leaves the program
as long as it was.
-/

namespace StackCalc

/-- How far to optimize: at level 0 not at all, at any other level, also one that was left empty, all the way. -/
inductive Level where
  | number (n : Int)
  | empty
deriving DecidableEq, Repr

def Level.text : Level → String
  | number n => toString n
  | empty => "[]"

/-- The program after each pass of a round. -/
structure Round (α : Type) where
  fused : Program α
  merged : Program α
  folded : Program α

/-- A program and the rounds that made it. -/
structure Optimized (α : Type) where
  program : Program α
  rounds : List (Round α)

namespace Program

variable {α : Type} (arithmetic : Arithmetic α) (representable : α → Bool)

/-- One round on a program. -/
def round (p : Program α) : Round α :=
  let fused := p.fuse
  let merged := fused.merge
  { fused, merged, folded := merged.fold arithmetic representable }

/-- The rounds on a program, at most `limit` of them. -/
def rounds (p : Program α) : (limit : Nat) → List (Round α)
  | 0 => []
  | limit + 1 =>
    let r := p.round arithmetic representable
    if r.folded.length < p.length then r :: rounds r.folded limit else [r]

/-- Optimizes a program, at level 0 not at all. Every round but the last shortens the program, so its length bounds
    their number. -/
def optimize (level : Level) (p : Program α) : Optimized α :=
  if level = .number 0 then { program := p, rounds := [] }
  else
    let rounds := p.rounds arithmetic representable (p.length + 1)
    { program := (rounds.getLast?.map Round.folded).getD p, rounds }

end Program

end StackCalc
