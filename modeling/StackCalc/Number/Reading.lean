import StackCalc.Number.Integer
import StackCalc.Text.Blank
import StackCalc.Text.Digit

/-!
Numbers typed by hand: a sign, digits of any script with single underscores between them, a fraction, a power
of ten, or the words for infinity and for no number, with blanks around all of it.
-/

namespace StackCalc.Number

/-- A character as the reader sees it: digits of other scripts as digits, blanks beyond `~` as spaces. -/
def simplified (c : Char) : Char :=
  if c.toNat < 127 then c
  else if Text.isBlank c then ' '
  else match Text.digitOf? c with
    | some n => Nat.digitChar n
    | none => c

/-- Blanks that may stand around a number. -/
def isMargin (c : Char) : Bool :=
  c == ' ' || (9 ≤ c.toNat && c.toNat ≤ 13)

/-- The text of a number without the blanks around it. -/
def trimmed (text : List Char) : List Char :=
  (((text.map simplified).dropWhile isMargin).reverse.dropWhile isMargin).reverse

/-- A leading sign, if any, and what follows it. -/
def splitSign : List Char → Bool × List Char
  | '-' :: rest => (true, rest)
  | '+' :: rest => (false, rest)
  | rest => (false, rest)

/-- Drops underscores. Each has to stand between two digits; `afterDigit` tells what stands before the text. -/
def withoutUnderscores? (afterDigit : Bool) : List Char → Option (List Char)
  | [] => some []
  | '_' :: rest =>
    match rest with
    | d :: _ => if afterDigit && d.isDigit then withoutUnderscores? false rest else none
    | [] => none
  | c :: rest => (withoutUnderscores? c.isDigit rest).map (c :: ·)

/-- The exponent after the digits: none, or a mark, an optional sign and digits. -/
def readExponent? : List Char → Option Int
  | [] => some 0
  | mark :: rest =>
    let (negative, digits) := splitSign rest
    if (mark == 'e' || mark == 'E') && !digits.isEmpty && digits.all Char.isDigit then
      let size : Int := natOfDigits digits
      some (if negative then -size else size)
    else none

/-- Digits with an optional point among or around them and an optional exponent. -/
def readDecimal? (negative : Bool) (text : List Char) : Option Decimal := do
  let whole := text.takeWhile Char.isDigit
  let afterWhole := text.dropWhile Char.isDigit
  let (fraction, rest) := match afterWhole with
    | '.' :: tail => (tail.takeWhile Char.isDigit, tail.dropWhile Char.isDigit)
    | tail => ([], tail)
  if whole.isEmpty && fraction.isEmpty then none
  else
    let plain := Decimal.ofDigits negative whole fraction
    let exponent ← readExponent? rest
    return { plain with exponent := plain.exponent + exponent }

/-- Reads a number typed by hand. -/
def read? (text : String) : Option Float := do
  let (negative, unsigned) := splitSign (trimmed text.toList)
  match String.ofList (unsigned.map Char.toLower) with
  | "inf" | "infinity" => return Double.infinity negative
  | "nan" => return Double.notANumber
  | _ =>
    let digits ← withoutUnderscores? false unsigned
    return (← readDecimal? negative digits).toFloat

/-- Reads an integer typed by hand. -/
def readInt? (text : String) : Option Int := do
  let (negative, unsigned) := splitSign (trimmed text.toList)
  let digits ← withoutUnderscores? false unsigned
  if digits.isEmpty || !digits.all Char.isDigit then none
  else
    let size : Int := (← (readRow digits).toOption)
    return if negative then -size else size

end StackCalc.Number
