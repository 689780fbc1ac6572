import StackCalc.Number.Double

/-!
Decimal numbers `± coefficient · 10^exponent` and their nearest doubles.
-/

namespace StackCalc

/-- The number `± coefficient · 10^exponent`. The sign is kept for zero as well. -/
structure Decimal where
  negative : Bool := false
  coefficient : Nat
  exponent : Int
deriving DecidableEq, Repr

/-- The value of a decimal digit; other characters count as zero. -/
def digitValue (c : Char) : Nat :=
  if c.isDigit then c.toNat - '0'.toNat else 0

/-- The natural that a row of decimal digits denotes. -/
def natOfDigits (digits : List Char) : Nat :=
  digits.foldl (fun n c => n * 10 + digitValue c) 0

namespace Decimal

/-- The decimal `whole.fraction`, each part a row of digits. -/
def ofDigits (negative : Bool) (whole fraction : List Char) : Decimal :=
  { negative, coefficient := natOfDigits (whole ++ fraction), exponent := -(fraction.length : Int) }

/-- The double nearest to a decimal, a tie going to the even mantissa. Powers of ten that leave the range of
    doubles whatever the coefficient are answered without being computed. -/
def toFloat (d : Decimal) : Float :=
  if d.coefficient = 0 then
    Double.nearest d.negative 0 1
  else
    match d.exponent with
    | .ofNat n =>
      if 400 < n then Double.infinity d.negative else Double.nearest d.negative (d.coefficient * Nat.pow 10 n) 1
    | .negSucc n =>
      if d.coefficient.log2 + 1100 < 3 * (n + 1) then Double.nearest d.negative 0 1
      else Double.nearest d.negative d.coefficient (Nat.pow 10 (n + 1))

end Decimal

end StackCalc
