import StackCalc.Number.Numeral
import StackCalc.Operator
import StackCalc.Text.Quoted

/-!
Tokens of source text. A stream of tokens knows for each token how many characters of the source have been read
by the time the token is known, and it ends either with the source or at a fault.
-/

namespace StackCalc

inductive Lexeme where
  | operator (op : Operator)
  | opening
  | closing
  | symbol (name : String)
  | number (numeral : Numeral)
deriving DecidableEq, Repr

namespace Lexeme

/-- The lexeme as it stands in the source. -/
def text : Lexeme → String
  | operator op => op.sign
  | opening => "("
  | closing => ")"
  | symbol name => name
  | number numeral => numeral.text

/-- The class that token displays name. -/
def kind : Lexeme → String
  | operator .add => "PLUS"
  | operator .sub => "MINUS"
  | operator .mul => "STAR"
  | operator .div => "SLASH"
  | operator .mod => "PERCENT"
  | operator .pow => "CARET"
  | operator .min => "MIN"
  | operator .max => "MAX"
  | opening => "LPAREN"
  | closing => "RPAREN"
  | symbol _ => "SYMBOL"
  | number _ => "NUMBER"

end Lexeme

/-- A lexeme and the line on which it stands. -/
structure Token where
  lexeme : Lexeme
  line : Nat
deriving DecidableEq, Repr

/-- What is found where something else was expected: a token, or the end of the source, which counts as
    standing on the line of the last token. -/
inductive Found where
  | token (token : Token)
  | endOfSource (line : Nat)
deriving DecidableEq, Repr

namespace Found

def line : Found → Nat
  | token t => t.line
  | endOfSource line => line

def text : Found → String
  | token t => t.lexeme.text
  | endOfSource _ => "<EOS>"

def kind : Found → String
  | token t => t.lexeme.kind
  | endOfSource _ => "EOS"

/-- Kind, quoted text and line on one line of text. -/
def display (f : Found) : String :=
  "Token(" ++ f.kind ++ ", " ++ Text.quoted f.text ++ ", line=" ++ toString f.line ++ ")"

end Found

def Token.display (t : Token) : String :=
  (Found.token t).display

/-- Why a source cannot be cut into tokens, and on which line. -/
inductive ScanError where
  | unrecognized (char : Char) (line : Nat)
  /-- A numeral with two points or with nothing after its point; the text ends with the point at fault. -/
  | malformedNumber (text : String) (line : Nat)
deriving DecidableEq, Repr

namespace ScanError

def line : ScanError → Nat
  | unrecognized _ line => line
  | malformedNumber _ line => line

def message : ScanError → String
  | unrecognized char line =>
    "[LexerError] Line " ++ toString line ++ ": " ++ Text.quoted (String.singleton char) ++ ": unrecognized character"
  | malformedNumber text line =>
    "[LexerError] Line " ++ toString line ++ ": " ++ Text.quoted text ++ ": malformed number"

end ScanError

/-- A stream of tokens. `read` counts the characters of the source that were read to tell the token, the fault
    or the end. -/
inductive Tokens where
  | cons (token : Token) (read : Nat) (rest : Tokens)
  | fault (error : ScanError) (read : Nat)
  | done (read : Nat)
deriving DecidableEq, Repr

namespace Tokens

/-- How many characters have been read when the head of the stream is known. -/
def read : Tokens → Nat
  | cons _ read _ => read
  | fault _ read => read
  | done read => read

/-- Tokens that the same characters told, before a stream. -/
def prepend (tokens : List Token) (read : Nat) (rest : Tokens) : Tokens :=
  tokens.foldr (fun t stream => .cons t read stream) rest

/-- All tokens of a stream, or the fault at which it ends. -/
def toList : Tokens → Except ScanError (List Token)
  | cons t _ rest => return t :: (← rest.toList)
  | fault error _ => .error error
  | done _ => .ok []

end Tokens

end StackCalc
