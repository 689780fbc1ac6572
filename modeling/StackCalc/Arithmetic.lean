import StackCalc.Number.Double
import StackCalc.Operator

/-!
What the operators compute. An arithmetic gives every operator a function of two operands, and an operation
combines its operands from left to right. The arithmetic of doubles never fails: division by zero, overflow and
undefined results are infinities or no number.
-/

namespace StackCalc

/-- A function of two operands for every operator. -/
abbrev Arithmetic (α : Type) := Operator → α → α → α

/-- Combines values from left to right; there is nothing to combine in an empty list. -/
def combine? {α : Type} (f : α → α → α) : List α → Option α
  | [] => none
  | first :: rest => some (rest.foldl f first)

namespace Double

/-- The remainder `x - n · y` for the integer `n` nearest to `x / y`, the even one on a tie. A remainder of zero
    has the sign of `x`. -/
def remainder (x y : Float) : Float :=
  match ofFloat x, ofFloat y with
  | .finite negative m₁ s₁, .finite _ m₂ s₂ =>
    let dividend := m₁ * Nat.pow 2 s₁
    let divisor := m₂ * Nat.pow 2 s₂
    if divisor = 0 then notANumber
    else
      let rest := dividend % divisor
      let missing := divisor - rest
      if rest < missing ∨ (rest = missing ∧ dividend / divisor % 2 = 0) then nearest negative rest unitsPerOne
      else nearest (!negative) missing unitsPerOne
  | .finite .., .infinite _ => x
  | _, _ => notANumber

/-- Power. Zero to a negative power is infinite, with the sign of the zero if the exponent is an odd integer. -/
def power (base exponent : Float) : Float :=
  match ofFloat base with
  | .finite negative 0 _ =>
    if exponent < 0 then infinity (negative && isOddInteger exponent) else base.pow exponent
  | _ => base.pow exponent

/-- The smaller of two numbers, the first of two that are equal; no number if either is none. -/
def minimum (x y : Float) : Float :=
  if x.isNaN || y.isNaN then notANumber else if x ≤ y then x else y

/-- The larger of two numbers, the first of two that are equal; no number if either is none. -/
def maximum (x y : Float) : Float :=
  if x.isNaN || y.isNaN then notANumber else if y ≤ x then x else y

/-- The arithmetic of doubles. -/
def arithmetic : Arithmetic Float
  | .add => (· + ·)
  | .sub => (· - ·)
  | .mul => (· * ·)
  | .div => (· / ·)
  | .mod => remainder
  | .pow => power
  | .min => minimum
  | .max => maximum

end Double

end StackCalc
