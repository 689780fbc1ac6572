import StackCalc.Expr.Compile
import StackCalc.Expr.Parse
import StackCalc.Machine
import StackCalc.Optimize.Rounds
import StackCalc.Token.Scan

/-!
From source text to a program and from the text of a program to its value, with notes on every phase. A phase that
fails ends the work; the notes taken by then remain.
-/

namespace StackCalc

/-- A result together with the notes taken on the way to it. -/
structure Noted (α : Type) where
  notes : List String
  result : α

namespace Noted

/-- The notes as lines of text; only a run that is watched shows them. -/
def log {α : Type} (n : Noted α) (watched : Bool) : String :=
  if watched then String.join (n.notes.map fun note => "[rpn] " ++ note ++ "\n") else ""

end Noted

/-- Why a source has no program text. -/
inductive CompileError where
  | parse (error : ParseError)
  /-- The program holds a number with too many digits to be written. -/
  | digits (error : DigitError)
deriving DecidableEq, Repr

def CompileError.message : CompileError → Report
  | parse error => .ok error.message
  | digits error => .error error

/-- How a program is written: as text, or as a listing. -/
inductive Format where
  | text
  | listing
deriving DecidableEq, Repr

namespace Source

/-- The expression that a source stands for. -/
def parse (source : List Char) : Except ParseError Located :=
  (Tokens.scan source).parse.1

/-- Displays of the tokens of a source. -/
def tokens (source : List Char) : Except ScanError (List String) :=
  (Tokens.scan source).toList.map (List.map Token.display)

/-- The outline of the expression of a source. -/
def outline (source : List Char) : Except ParseError String :=
  (parse source).map (·.expr.outline)

/-- The program of a source, optimized at some level. -/
def compile (level : Level) (source : List Char) : Noted (Except ParseError (Program Float)) :=
  let reading := "Phase 1: Lexical analysis and parsing"
  match parse source with
  | .error error => ⟨[reading], .error error⟩
  | .ok located =>
    let generated := located.expr.program
    let optimized := generated.optimize Double.arithmetic Literal.isRepresentable level
    let notes :=
      [reading,
       "Phase 2: Code generation",
       "  " ++ toString generated.length ++ " instructions generated",
       "Phase 3: Optimization (level " ++ level.text ++ ")",
       "  " ++ toString optimized.program.length ++ " instructions after "
          ++ toString optimized.rounds.length ++ " round(s)"]
    ⟨notes, .ok optimized.program⟩

/-- The program of a source as text or as a listing. -/
def compileText (level : Level) (format : Format) (source : List Char) : Noted (Except CompileError String) :=
  match compile level source with
  | ⟨notes, .error error⟩ => ⟨notes, .error (.parse error)⟩
  | ⟨notes, .ok program⟩ =>
    let text := match format with
      | .text => Program.text program
      | .listing => (Program.listing program).map (· ++ "\n")
    ⟨notes ++ ["Phase 4: Emission"], text.mapError .digits⟩

end Source

/-- Values of names in the order in which the names were first bound. -/
abbrev Bindings := List (String × Float)

namespace Bindings

/-- Binds a name; one that is bound already keeps its place. -/
def put (name : String) (value : Float) : Bindings → Bindings
  | [] => [(name, value)]
  | (other, old) :: rest => if other = name then (name, value) :: rest else (other, old) :: put name value rest

/-- Bindings as a resolver. -/
def resolver (b : Bindings) : Resolver Float :=
  fun name => b.lookup name

end Bindings

namespace ProgramText

/-- The declared names of the text of a program. -/
def symbols (text : List Char) : Except LoadError (List String) :=
  (Loaded.load text).toProgram.map Program.symbols

/-- The note on a name that the program asked for. -/
def askedNote (resolve : Resolver Float) (name : String) : String :=
  let value := match resolve name with
    | some x => Number.display x
    | none => "None"
  "  sym " ++ name ++ " <- " ++ value

/-- The value of the text of a program. -/
def evaluate (resolve : Resolver Float) (text : List Char) : Noted (Except TextError Float) :=
  let run := ((Loaded.load text).run Double.arithmetic resolve).1
  let asked := "Phase 1: Loading and evaluation" :: run.asked.map (askedNote resolve)
  match run.result with
  | .error error => ⟨asked, .error error⟩
  | .ok value => ⟨asked ++ ["  result " ++ Number.display value], .ok value⟩

end ProgramText

end StackCalc
