import StackCalc.Optimize.Rounds
import StackCalc.Proofs.FoldingDraft
import StackCalc.Proofs.Fusion

/-!
The optimizer is transparent. Fusing and folding keep what every program does, and merging keeps it up to the account of
an operation that lacks operands, so the same holds of a round and of any number of rounds. All of this only needs the
operators that are regrouped to be associative, and no operator that the program does not use matters.
-/

namespace StackCalc

namespace Program

section Optimize

variable {α : Type} {P : Operator → Prop} {arithmetic : Arithmetic α} {representable : α → Bool} {resolve : Resolver α}
  {p : Program α}

/-- What a round keeps holds of the program after every round. -/
theorem rounds_induction {R : Program α → Prop} (hround : ∀ q, R q → R (q.round arithmetic representable).folded)
    (hp : R p) (limit : Nat) : ∀ r ∈ p.rounds arithmetic representable limit, R r.folded := by
  induction limit generalizing p with
  | zero =>
    intro r hr
    cases hr
  | succ limit ih =>
    intro r hr
    rw [rounds] at hr
    split at hr
    · rcases List.mem_cons.mp hr with rfl | hr
      · exact hround p hp
      · exact ih (hround p hp) r hr
    · obtain rfl := List.mem_singleton.mp hr
      exact hround p hp

/-- What a round keeps holds of the optimized program. -/
theorem optimize_induction {R : Program α → Prop} (hround : ∀ q, R q → R (q.round arithmetic representable).folded)
    (hp : R p) (level : Level) : R (p.optimize arithmetic representable level).program := by
  unfold optimize
  split
  · exact hp
  · cases hlast : (p.rounds arithmetic representable (p.length + 1)).getLast? with
    | none => simpa [hlast] using hp
    | some r => simpa [hlast] using rounds_induction hround hp _ r (List.mem_of_getLast? hlast)

theorem Uses.round (hp : p.Uses P) : (p.round arithmetic representable).folded.Uses P :=
  hp.fuse.merge.fold

variable (hassoc : ∀ op, P op → op.isFusible = true → Std.Associative (arithmetic op))
include hassoc

theorem alike_round (hp : p.Uses P) : Alike arithmetic resolve (p.round arithmetic representable).folded p := by
  have hfused : Alike arithmetic resolve p.fuse p := .of_exec (exec_fuse hassoc hp)
  have hmerged : Alike arithmetic resolve p.fuse.merge p.fuse := alike_merge hassoc hp.fuse
  have hfolded : Alike arithmetic resolve (p.fuse.merge.fold arithmetic representable) p.fuse.merge :=
    .of_exec (exec_fold hassoc hp.fuse.merge)
  exact (hfolded.trans hmerged).trans hfused

/-- An optimized program does what the program does, if the operators that it uses may be regrouped. -/
theorem alike_optimize (hp : p.Uses P) (level : Level) :
    Alike arithmetic resolve (p.optimize arithmetic representable level).program p := by
  have hround : ∀ q, q.Uses P ∧ Alike arithmetic resolve q p →
      (q.round arithmetic representable).folded.Uses P ∧
        Alike arithmetic resolve (q.round arithmetic representable).folded p := by
    rintro q ⟨hq, hqp⟩
    exact ⟨hq.round, (alike_round hassoc hq).trans hqp⟩
  exact (optimize_induction hround ⟨hp, .refl p⟩ level).2

end Optimize

end Program

/-- The arithmetic of integers, in which no result is rounded. -/
def Integer.arithmetic : Arithmetic Int
  | .add => Int.add
  | .sub => Int.sub
  | .mul => Int.mul
  | .div => Int.fdiv
  | .mod => Int.fmod
  | .pow => fun base exponent => Int.pow base exponent.toNat
  | .min => fun x y => if x ≤ y then x else y
  | .max => fun x y => if y ≤ x then x else y

end StackCalc
