import StackCalc.Number.Rounding

/-!
Doubles as exact numbers. A finite double is `± mantissa · 2^scale` in units of `2^-1074`, the smallest
positive double; in these units the bit pattern of a magnitude is `scale · 2^52 + mantissa`, for subnormal
and normal numbers alike, so that carrying into the next binade needs no case of its own.
-/

namespace StackCalc

/-- A double taken apart. -/
inductive Double where
  | nan
  | infinite (negative : Bool)
  /-- The number `± mantissa · 2^scale · 2^-1074`. -/
  | finite (negative : Bool) (mantissa scale : Nat)
deriving DecidableEq, Repr

namespace Double

/-- The bit pattern of positive infinity, which follows that of the largest finite double. -/
def infinityBits : Nat := 2047 * Nat.pow 2 52

/-- The denominator of every finite double: magnitudes count units of `1 / unitsPerOne`. -/
def unitsPerOne : Nat := Nat.pow 2 1074

/-- The double with a given sign and bit pattern of its magnitude. -/
def ofMagnitudeBits (negative : Bool) (bits : Nat) : Float :=
  Float.ofBits (UInt64.ofNat (if negative then Nat.pow 2 63 + bits else bits))

def ofFloat (x : Float) : Double :=
  let bits := x.toBits.toNat
  let negative := bits / Nat.pow 2 63 == 1
  let exponentField := bits / Nat.pow 2 52 % Nat.pow 2 11
  let fraction := bits % Nat.pow 2 52
  if exponentField = 2047 then
    if fraction = 0 then .infinite negative else .nan
  else if exponentField = 0 then
    .finite negative fraction 0
  else
    .finite negative (Nat.pow 2 52 + fraction) (exponentField - 1)

/-- The bit pattern of the double nearest to `num / den`, a tie going to the even mantissa. The scale is the
    smallest that leaves at most 53 bits before the point; beyond the largest finite double lies infinity. -/
def nearestBits (num den : Nat) : Nat :=
  let units := num * unitsPerOne
  let scale := (units / den).log2 - 52
  min (scale * Nat.pow 2 52 + roundHalfEven units (den * Nat.pow 2 scale)) infinityBits

/-- The double nearest to `± num / den`. -/
def nearest (negative : Bool) (num den : Nat) : Float :=
  ofMagnitudeBits negative (nearestBits num den)

def infinity (negative : Bool) : Float :=
  ofMagnitudeBits negative infinityBits

/-- The double that stands for no number. -/
def notANumber : Float :=
  Float.ofBits (UInt64.ofNat (infinityBits + Nat.pow 2 51))

/-- Whether a double is an odd integer. -/
def isOddInteger (x : Float) : Bool :=
  match ofFloat x with
  | .finite _ mantissa scale =>
    let units := mantissa * Nat.pow 2 scale
    units % unitsPerOne == 0 && units / unitsPerOne % 2 == 1
  | _ => false

end Double

end StackCalc
