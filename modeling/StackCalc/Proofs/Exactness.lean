import StackCalc.Proofs.Extremes
import StackCalc.Proofs.Transparency

/-!
Programs whose optimization is exact. Fusing and folding regroup the operands of sums, products, minima and maxima only,
and minimum and maximum of doubles may be regrouped: they give one of their operands back, the same one however the
operands are bracketed, also among zeros of both signs and with an operand that is no number. So a program without sums
and products has exactly the same value after it has been optimized, whatever its other operators compute.
-/

namespace StackCalc

/-- Runs that fail alike are the same if one of them has a result. -/
theorem Run.Similar.eq_of_ok {ε β : Type} {E : ε → ε → Prop} {r s : Run ε β} (h : Similar E Eq r s) {x : β}
    (hs : s.result = .ok x) : r = s := by
  obtain ⟨asked, e | y⟩ := r <;> obtain ⟨asked', f | z⟩ := s <;> obtain ⟨hasked, h⟩ := h
  · cases hs
  · exact h.elim
  · cases hs
  · exact Run.ext hasked (congrArg Except.ok h)

namespace Program

/-- A program without sums and products that has a value has the same value after it has been optimized, bit for bit,
    and asks for the same names. The other operators may be any functions, minimum and maximum apart, and any results
    may take the place of their operands. -/
theorem run_optimize_exact {arithmetic : Arithmetic Float} (hmin : arithmetic .min = Double.minimum)
    (hmax : arithmetic .max = Double.maximum) (representable : Float → Bool) (level : Level) {p : Program Float}
    (hp : p.Uses fun op => op ≠ .add ∧ op ≠ .mul) (resolve : Resolver Float) {x : Float}
    (hx : (p.run arithmetic resolve).result = .ok x) :
    (p.optimize arithmetic representable level).program.run arithmetic resolve =
      ⟨(p.run arithmetic resolve).asked, .ok x⟩ := by
  have hassoc : ∀ op : Operator, op ≠ .add ∧ op ≠ .mul → op.isFusible = true → Std.Associative (arithmetic op) := by
    intro op hop hf
    exact Double.associative_of_ne hmin hmax hop hf
  have hrun : (p.optimize arithmetic representable level).program.run arithmetic resolve = p.run arithmetic resolve :=
    (alike_optimize hassoc hp level).run.eq_of_ok hx
  rw [hrun, ← hx]

/-- The maximum of both zeros is the first of them, so folding the literals keeps the sign of the result. -/
theorem run_optimize_exact_zeros :
    let p : Program Float := [.declare "x", .fetch "x", .push (-0), .push 0, .apply (.binary .max),
      .apply (.binary .max), .push 1, .apply (.binary .div)]
    let q : Program Float := [.declare "x", .fetch "x", .push (-0), .apply (.binary .max), .push 1,
      .apply (.binary .div)]
    let resolve : Resolver Float := fun _ => some (-0)
    (p.optimize Double.arithmetic Literal.isRepresentable (.number 1)).program = q ∧
      q.run Double.arithmetic resolve = ⟨["x"], .ok (-0)⟩ ∧ (-0 : Float) ≠ 0 := by
  intro p q resolve
  have hq : (p.optimize Double.arithmetic Literal.isRepresentable (.number 1)).program = q := by decide +kernel
  have hx : (p.run Double.arithmetic resolve).result = .ok (-0) := eq_ok_of_toOption (by decide +kernel)
  have hp : p.Uses fun op => op ≠ .add ∧ op ≠ .mul := by simp [Uses, p, Operation.binary]
  have hrun := run_optimize_exact rfl rfl Literal.isRepresentable (.number 1) hp resolve hx
  rw [hq] at hrun
  exact ⟨hq, hrun, by decide +kernel⟩

end Program

end StackCalc
