import StackCalc.Number.Decimal

/-!
The shortest decimal that reads back as a given double. For one digit, two digits and so on, the two
neighbours of the value on that decimal grid are read back; the first grid with a hit wins, of two hits the
nearer one, of two that are equally near the even one.
-/

namespace StackCalc

namespace Shortest

/-- A power of ten that lifts every positive double above one. -/
def lift : Nat := 400

/-- The number of decimal digits of a natural. -/
def digitCount (n : Nat) : Nat :=
  (Nat.toDigits 10 n).length

/-- Whether the double nearest to `coefficient · 10^(unit - lift)` has the bit pattern `bits`. -/
def readsBack (bits coefficient unit : Nat) : Bool :=
  Double.nearestBits (coefficient * Nat.pow 10 unit) (Nat.pow 10 lift) == bits

/-- Of a natural and the next one, one that is accepted; of two that are accepted, `nearer`. -/
def accepted? (accepts : Nat → Bool) (below nearer : Nat) : Option Nat :=
  match accepts below, accepts (below + 1) with
  | false, false => none
  | true, false => some below
  | false, true => some (below + 1)
  | true, true => some nearer

/-- Of the two neighbours of `num / den` on the grid of multiples of `10^unit`, one that reads back. -/
def onGrid? (bits num den unit : Nat) : Option Nat :=
  let step := den * Nat.pow 10 unit
  accepted? (readsBack bits · unit) (num / step) (roundHalfEven num step)

end Shortest

open Shortest in
/-- The shortest decimal that reads back as the double `mantissa · 2^scale`. Seventeen digits always suffice;
    the exact expansion stands behind them. -/
def shortestDecimal (negative : Bool) (mantissa scale : Nat) : Decimal :=
  let bits := scale * Nat.pow 2 52 + mantissa
  let num := mantissa * Nat.pow 2 scale * Nat.pow 10 lift
  let size := digitCount (num / Double.unitsPerOne)
  let found := (List.range 17).findSome? fun n =>
    let unit := size - (n + 1)
    (onGrid? bits num Double.unitsPerOne unit).map fun coefficient =>
      { negative, coefficient, exponent := (unit : Int) - lift : Decimal }
  found.getD { negative, coefficient := mantissa * Nat.pow 2 scale * Nat.pow 5 1074, exponent := -1074 }

end StackCalc
