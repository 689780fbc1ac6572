import StackCalc.Number.Decimal

/-!
Literals of instruction text: a number is rounded to ten decimal places, half to even, and written without
trailing zeros. A number is representable if its literal reads back as the same number.
-/

namespace StackCalc

namespace Literal

/-- The number of decimal places that a literal keeps. -/
def places : Nat := 10

/-- The magnitude `mantissa · 2^scale` rounded to a multiple of `10^-places`. -/
def rounded (negative : Bool) (mantissa scale : Nat) : Decimal :=
  { negative
    coefficient := roundHalfEven (mantissa * Nat.pow 2 scale * Nat.pow 10 places) Double.unitsPerOne
    exponent := -(places : Int) }

/-- The last `places` digits of a natural, with leading zeros. -/
def fractionDigits (n : Nat) : List Char :=
  let digits := Nat.toDigits 10 (n % Nat.pow 10 places)
  List.replicate (places - digits.length) '0' ++ digits

/-- A count of units of `10^-places`, without trailing zeros and without a trailing point. -/
def magnitudeText (n : Nat) : List Char :=
  let whole := Nat.toDigits 10 (n / Nat.pow 10 places)
  let fraction := ((fractionDigits n).reverse.dropWhile (· == '0')).reverse
  if fraction.isEmpty then whole else whole ++ '.' :: fraction

/-- The literal that stands for a number. -/
def text (x : Float) : String :=
  match Double.ofFloat x with
  | .nan => "nan"
  | .infinite negative => if negative then "-inf" else "inf"
  | .finite negative mantissa scale =>
    let magnitude := magnitudeText (rounded negative mantissa scale).coefficient
    String.ofList (if negative then '-' :: magnitude else magnitude)

/-- Whether the literal of a number reads back as the number itself. -/
def isRepresentable (x : Float) : Bool :=
  match Double.ofFloat x with
  | .finite negative mantissa scale => (rounded negative mantissa scale).toFloat == x
  | _ => false

/-- A row of decimal digits, not empty. -/
def isDigitRow (text : List Char) : Bool :=
  !text.isEmpty && text.all Char.isDigit

/-- Reads digits, with digits after a point or without a point. -/
def readUnsigned? (negative : Bool) (text : List Char) : Option Float :=
  let whole := text.takeWhile (· ≠ '.')
  match text.dropWhile (· ≠ '.') with
  | [] => if isDigitRow whole then some (Decimal.ofDigits negative whole []).toFloat else none
  | _ :: fraction =>
    if isDigitRow whole && isDigitRow fraction then some (Decimal.ofDigits negative whole fraction).toFloat else none

/-- Reads an optional minus sign and a number without a sign. -/
def read? : List Char → Option Float
  | '-' :: rest => readUnsigned? true rest
  | text => readUnsigned? false text

end Literal

end StackCalc
