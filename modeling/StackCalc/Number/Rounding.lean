/-!
Rounding a quotient of naturals to the nearest natural, a half going to the even neighbour. Reading
decimals, writing them to a fixed number of places and the remainder of doubles all rest on this one rule.
-/

namespace StackCalc

/-- The natural nearest to `num / den`; of two that are equally near, the even one. -/
def roundHalfEven (num den : Nat) : Nat :=
  let below := num / den
  let rest := num % den
  if 2 * rest < den ∨ (2 * rest = den ∧ below % 2 = 0) then below else below + 1

end StackCalc
