import StackCalc.Number.Decimal

/-!
Integers as rows of decimal digits. A row has a limited length: a longer one is neither read nor written. Counts of
what is at hand, such as lines or entries of a stack, stay far below the limit and are written without it.
-/

namespace StackCalc

/-- Why an integer is not read from its row of digits or not written as one. -/
inductive DigitError where
  /-- A row of so many digits. -/
  | reading (digits : Nat)
  | writing
deriving DecidableEq, Repr

namespace Number

/-- The most digits that an integer may have in a text, leading zeros included. -/
def mostDigits : Nat := 4300

/-- Reads a natural from its row of digits. -/
def readRow (digits : List Char) : Except DigitError Nat :=
  if digits.length ≤ mostDigits then .ok (natOfDigits digits) else .error (.reading digits.length)

/-- Writes an integer. -/
def write (n : Int) : Except DigitError String :=
  if (Nat.toDigits 10 n.natAbs).length ≤ mostDigits then .ok (toString n) else .error .writing

end Number

/-- The report of an error, which is not made if it is to show an integer that cannot be written. -/
abbrev Report := Except DigitError String

def DigitError.message (e : DigitError) : String :=
  let value := match e with
    | reading digits => ": value has " ++ toString digits ++ " digits"
    | writing => ""
  "Exceeds the limit (" ++ toString Number.mostDigits ++ " digits) for integer string conversion" ++ value ++
    "; use sys.set_int_max_str_digits() to increase the limit"

end StackCalc
