import StackCalc.Number.Shortest

/-!
The text of a number. The display text writes the shortest digits, positionally for moderate exponents and
with a power of ten otherwise; the source text is the display text where that is positional, and the same
digits written positionally where it is not, because source text has no powers of ten.
-/

namespace StackCalc

/-- Digits with the place of the point: the value is `0.digits · 10^point`. -/
structure Figures where
  digits : List Char
  point : Int

namespace Figures

/-- The digits of a decimal without its trailing zeros. -/
def ofDecimal (d : Decimal) : Figures :=
  let digits := Nat.toDigits 10 d.coefficient
  let significant := (digits.reverse.dropWhile (· == '0')).reverse
  if significant.isEmpty then { digits := ['0'], point := 1 }
  else { digits := significant, point := digits.length + d.exponent }

/-- Exponents from -4 to 15 are written positionally. -/
def isModerate (f : Figures) : Bool :=
  decide (-4 < f.point ∧ f.point ≤ 16)

/-- Positional text. `whole` closes the text of an integer. -/
def positional (f : Figures) (whole : List Char) : List Char :=
  match f.point with
  | .ofNat p =>
    if p = 0 then '0' :: '.' :: f.digits
    else if f.digits.length ≤ p then f.digits ++ List.replicate (p - f.digits.length) '0' ++ whole
    else f.digits.take p ++ '.' :: f.digits.drop p
  | .negSucc n => '0' :: '.' :: (List.replicate (n + 1) '0' ++ f.digits)

/-- Text of an exponent: a sign and at least two digits. -/
def exponentText (e : Int) : List Char :=
  let digits := Nat.toDigits 10 e.natAbs
  (if e < 0 then '-' else '+') :: (if digits.length < 2 then '0' :: digits else digits)

/-- One digit before the point, then a power of ten. -/
def scientific (f : Figures) : List Char :=
  let fraction := match f.digits.drop 1 with
    | [] => []
    | rest => '.' :: rest
  f.digits.take 1 ++ fraction ++ 'e' :: exponentText (f.point - 1)

end Figures

namespace Number

/-- Text of a double, given how the figures of a magnitude are written. -/
def textWith (magnitude : Figures → List Char) (x : Float) : String :=
  match Double.ofFloat x with
  | .nan => "nan"
  | .infinite negative => if negative then "-inf" else "inf"
  | .finite negative mantissa scale =>
    let figures := Figures.ofDecimal (shortestDecimal negative mantissa scale)
    String.ofList (if negative then '-' :: magnitude figures else magnitude figures)

/-- The shortest text that reads back as the same double. -/
def display (x : Float) : String :=
  textWith (fun f => if f.isModerate then f.positional ['.', '0'] else f.scientific) x

/-- The display text, with any power of ten written out. -/
def source (x : Float) : String :=
  textWith (fun f => if f.isModerate then f.positional ['.', '0'] else f.positional []) x

end Number

end StackCalc
