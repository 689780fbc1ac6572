/-!
Blank characters, and text cut at them. The scan of source text knows five blanks only; instruction text and
numbers typed by hand go by the table of this module.
-/

namespace StackCalc.Text

/-- Code points of the blank characters, as ranges with both ends included. -/
def blankRanges : List (Nat × Nat) :=
  [(0x09, 0x0d), (0x1c, 0x20), (0x85, 0x85), (0xa0, 0xa0), (0x1680, 0x1680), (0x2000, 0x200a),
   (0x2028, 0x2029), (0x202f, 0x202f), (0x205f, 0x205f), (0x3000, 0x3000)]

def isBlank (c : Char) : Bool :=
  blankRanges.any fun (low, high) => low ≤ c.toNat && c.toNat ≤ high

/-- The maximal runs of characters that are not blank, in order. -/
def fields : List Char → List (List Char)
  | [] => []
  | c :: rest =>
    if isBlank c then
      fields rest
    else
      match rest, fields rest with
      | d :: _, field :: more => if isBlank d then [c] :: field :: more else (c :: field) :: more
      | _, more => [c] :: more

end StackCalc.Text
