import StackCalc.Token

/-!
Cutting source text into tokens, one character at a time. A word or a numeral ends only with the character after
it, which is then the first character of what follows; every other token is told by its own character. So a
stream never depends on characters beyond those it counts as read.
-/

namespace StackCalc

namespace Scan

/-- Blanks of source text. -/
def isBlank (c : Char) : Bool :=
  c == ' ' || c == '\n' || c == '\r' || c == '\t' || c == '\x0c'

/-- Tokens of one character. -/
def single? : Char → Option Lexeme
  | '+' => some (.operator .add)
  | '-' => some (.operator .sub)
  | '*' => some (.operator .mul)
  | '/' => some (.operator .div)
  | '%' => some (.operator .mod)
  | '^' => some (.operator .pow)
  | '(' => some .opening
  | ')' => some .closing
  | _ => none

/-- The lexeme of a word: two words are operators, the others are symbols. -/
def ofWord (word : String) : Lexeme :=
  if word = "min" then .operator .min
  else if word = "max" then .operator .max
  else .symbol word

/-- What has been read of a token that is not yet told. Letters and digits are gathered with the latest in front. -/
inductive Underway where
  | nothing
  | word (latest : List Char)
  | whole (latest : DigitRow)
  /-- A point after a row of digits. -/
  | point (whole : DigitRow)
  | fraction (whole latest : DigitRow)
deriving DecidableEq, Repr

/-- A scan between two characters: the token under way, and the line that the scan has come to. -/
structure State where
  underway : Underway := .nothing
  line : Nat := 1
deriving DecidableEq, Repr

/-- The text of letters that were gathered latest first. -/
def gathered (latest : List Char) : String :=
  String.ofList latest.reverse

/-- Reads a character where no token is under way. -/
def State.start (s : State) (c : Char) : List Token × Except ScanError State :=
  if isBlank c then ([], .ok { underway := .nothing, line := if c = '\n' then s.line + 1 else s.line })
  else match single? c with
    | some lexeme => ([⟨lexeme, s.line⟩], .ok { underway := .nothing, line := s.line })
    | none =>
      if c.isAlpha then ([], .ok { underway := .word [c], line := s.line })
      else if h : c.isDigit = true then ([], .ok { underway := .whole (.single c h), line := s.line })
      else ([], .error (.unrecognized c s.line))

/-- Tells a token, then reads the character after it. -/
def State.startAfter (s : State) (lexeme : Lexeme) (c : Char) : List Token × Except ScanError State :=
  let r := s.start c
  (⟨lexeme, s.line⟩ :: r.1, r.2)

/-- Reads a character: the tokens that it tells, and the state after it or the fault that it shows. -/
def State.step (s : State) (c : Char) : List Token × Except ScanError State :=
  match s.underway with
  | .nothing => s.start c
  | .word latest =>
    if c.isAlpha then ([], .ok { s with underway := .word (c :: latest) })
    else s.startAfter (ofWord (gathered latest)) c
  | .whole latest =>
    if h : c.isDigit = true then ([], .ok { s with underway := .whole (latest.push c h) })
    else if c = '.' then ([], .ok { s with underway := .point latest.reverse })
    else s.startAfter (.number { whole := latest.reverse }) c
  | .point whole =>
    if h : c.isDigit = true then ([], .ok { s with underway := .fraction whole (.single c h) })
    else if c = '.' then ([], .error (.malformedNumber (String.ofList (whole.chars ++ ['.', '.'])) s.line))
    else ([], .error (.malformedNumber (String.ofList (whole.chars ++ ['.'])) s.line))
  | .fraction whole latest =>
    if h : c.isDigit = true then ([], .ok { s with underway := .fraction whole (latest.push c h) })
    else if c = '.' then
      ([], .error (.malformedNumber (String.ofList (whole.chars ++ '.' :: (latest.reverse.chars ++ ['.']))) s.line))
    else s.startAfter (.number { whole, fraction := some latest.reverse }) c

/-- The end of the source tells the token under way. -/
def State.finish (s : State) (read : Nat) : Tokens :=
  match s.underway with
  | .nothing => .done read
  | .word latest => .cons ⟨ofWord (gathered latest), s.line⟩ read (.done read)
  | .whole latest => .cons ⟨.number { whole := latest.reverse }, s.line⟩ read (.done read)
  | .point whole => .fault (.malformedNumber (String.ofList (whole.chars ++ ['.'])) s.line) read
  | .fraction whole latest =>
    .cons ⟨.number { whole, fraction := some latest.reverse }, s.line⟩ read (.done read)

/-- The tokens of the rest of a source, of which `read` characters have been read. -/
def run (s : State) (read : Nat) : List Char → Tokens
  | [] => s.finish read
  | c :: rest =>
    let r := s.step c
    .prepend r.1 (read + 1) <|
      match r.2 with
      | .error error => .fault error (read + 1)
      | .ok state => run state (read + 1) rest

end Scan

/-- The tokens of a source. -/
def Tokens.scan (source : List Char) : Tokens :=
  Scan.run {} 0 source

end StackCalc
