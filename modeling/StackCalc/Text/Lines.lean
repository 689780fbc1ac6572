/-!
Line ends. Text from a file or from standard input may end its lines with a carriage return, a line feed or
both; inside the program every line ends with a line feed.
-/

namespace StackCalc.Text

/-- Every line end as one line feed. -/
def unifyLineEnds : List Char → List Char
  | [] => []
  | '\r' :: '\n' :: rest => '\n' :: unifyLineEnds rest
  | '\r' :: rest => '\n' :: unifyLineEnds rest
  | c :: rest => c :: unifyLineEnds rest

/-- A text with every line end as one line feed. -/
def withLineFeeds (text : String) : String :=
  String.ofList (unifyLineEnds text.toList)

end StackCalc.Text
