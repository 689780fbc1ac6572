import StackCalc.Number.Literal

/-!
Plain numerals: digits, or digits, a point and digits. They are the numbers of source text.
-/

namespace StackCalc

/-- A row of decimal digits, not empty. -/
structure DigitRow where
  chars : List Char
  isRow : Literal.isDigitRow chars = true
deriving DecidableEq, Repr

namespace DigitRow

def single (c : Char) (h : c.isDigit = true) : DigitRow where
  chars := [c]
  isRow := by simp [Literal.isDigitRow, h]

/-- A row with one more digit in front. -/
def push (row : DigitRow) (c : Char) (h : c.isDigit = true) : DigitRow where
  chars := c :: row.chars
  isRow := by
    have hrow := row.isRow
    simp only [Literal.isDigitRow, Bool.and_eq_true] at hrow
    simp [Literal.isDigitRow, h, hrow.2]

def reverse (row : DigitRow) : DigitRow where
  chars := row.chars.reverse
  isRow := by
    have hrow := row.isRow
    simpa [Literal.isDigitRow] using hrow

end DigitRow

structure Numeral where
  whole : DigitRow
  /-- The digits after the point, if there is one. -/
  fraction : Option DigitRow := none
deriving DecidableEq, Repr

namespace Numeral

/-- The digits after the point, none without a point. -/
def fractionDigits (n : Numeral) : List Char :=
  n.fraction.elim [] DigitRow.chars

/-- The numeral as it stands in a source. -/
def text (n : Numeral) : String :=
  match n.fraction with
  | none => String.ofList n.whole.chars
  | some fraction => String.ofList (n.whole.chars ++ '.' :: fraction.chars)

/-- The number that a numeral denotes. -/
def decimal (n : Numeral) : Decimal :=
  .ofDigits false n.whole.chars n.fractionDigits

end Numeral

end StackCalc
