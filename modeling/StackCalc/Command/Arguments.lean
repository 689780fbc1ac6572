import StackCalc.Text.Digit
import StackCalc.Text.Quoted

/-!
Arguments of a command. Words that begin with a dash are switches, which may be abbreviated, written together or
carry a value; all others are operands. Operands have to stand together: those that come after a switch has ended
the first group are not recognized. The word `--` ends the switches. What is made of `--` and of an equals sign within a
word has changed over time, so both customs are described.
-/

namespace StackCalc.Command

/-- How arguments are read in the cases in which this has changed. By the former custom the word `--` is never a value,
    so a switch that has it attached is given with its value left empty; an equals sign behind switches that are written
    together belongs to the value of the last of them, and if it has none, the letters behind it count as further
    switches; and switches written together with a letter that is none are refused. By the present custom `--` may be
    attached as a value, an equals sign stands before a value, and from a letter on that is no switch the rest of the
    word is set aside. -/
inductive Custom where
  | former
  | present
deriving DecidableEq, Repr

/-- The value of a switch, if it counts as one. -/
def Custom.value? (c : Custom) (value : Option String) : Option String :=
  match c with
  | .former => value.filter (· ≠ "--")
  | .present => value

/-- A switch with its spellings, the short one first. -/
structure Switch (ι : Type) where
  id : ι
  spellings : List String
  takesValue : Bool := false

/-- The spellings of a switch as messages name it. -/
def Switch.name {ι : Type} (s : Switch ι) : String :=
  "/".intercalate s.spellings

/-- Why arguments are refused. -/
inductive UsageError where
  | ambiguous (word : String) (candidates : List String)
  | valueExpected (switch : String)
  | valueIgnored (switch : String) (value : String)
  | conflict (switch other : String)
  | invalidInteger (switch : String) (value : String)
  | invalidChoice (switch : String) (value : Int) (choices : List Int)
  | unrecognized (words : List String)
deriving DecidableEq, Repr

namespace UsageError

/-- A complaint about a switch. -/
def about (switch complaint : String) : String :=
  "argument " ++ switch ++ ": " ++ complaint

def message : UsageError → String
  | ambiguous word candidates =>
    "ambiguous option: " ++ word ++ " could match " ++ ", ".intercalate candidates
  | valueExpected switch => about switch "expected one argument"
  | valueIgnored switch value => about switch ("ignored explicit argument " ++ Text.quoted value)
  | conflict switch other => about switch ("not allowed with argument " ++ other)
  | invalidInteger switch value => about switch ("invalid int value: " ++ Text.quoted value)
  | invalidChoice switch value choices =>
    about switch ("invalid choice: " ++ toString value
      ++ " (choose from " ++ ", ".intercalate (choices.map toString) ++ ")")
  | unrecognized words => "unrecognized arguments: " ++ " ".intercalate words

end UsageError

/-- Characters behind a switch in its word, with an equals sign between them or not. -/
structure Attached where
  byEquals : Bool
  chars : List Char
deriving DecidableEq, Repr

/-- What a word of the arguments is. -/
inductive Word (ι : Type) where
  | operand
  /-- The word `--`, which makes operands of all words after it. -/
  | marker
  /-- A switch in one of its spellings, with something attached to it or not. -/
  | switch (switch : Switch ι) (isLong : Bool) (attached : Option Attached)
  /-- A word with the form of a switch that the command does not have. -/
  | unknown

section

variable {ι : Type}

/-- A dash and digits, with a point before the last of them or without one: a negative number. A line feed may
    stand at the end. -/
def isNegativeNumber (word : List Char) : Bool :=
  let isDigit := fun c => (Text.digitOf? c).isSome
  match word with
  | '-' :: rest =>
    let body := if rest.getLast? = some '\n' then rest.dropLast else rest
    match body.dropWhile isDigit with
    | [] => !body.isEmpty
    | '.' :: fraction => !fraction.isEmpty && fraction.all isDigit
    | _ => false
  | _ => false

/-- A word cut at its first equals sign. -/
def splitAtEquals (word : List Char) : List Char × Option Attached :=
  match word.dropWhile (· ≠ '=') with
  | [] => (word, none)
  | _ :: value => (word.takeWhile (· ≠ '='), some ⟨true, value⟩)

/-- All spellings of all switches, in order. -/
def spellingsOf (switches : List (Switch ι)) : List (Switch ι × String) :=
  switches.flatMap fun s => s.spellings.map (s, ·)

/-- The switch with a given spelling. -/
def find? (switches : List (Switch ι)) (spelling : List Char) : Option (Switch ι) :=
  ((spellingsOf switches).find? fun entry => entry.2.toList == spelling).map (·.1)

/-- What a word that begins with a dash may be short for, with what is attached to it. -/
def candidates (switches : List (Switch ι)) (word : List Char) :
    List (Switch ι × String) × Option Attached :=
  match word with
  | '-' :: '-' :: _ =>
    let (start, value) := splitAtEquals word
    ((spellingsOf switches).filter fun entry => start.isPrefixOf entry.2.toList, value)
  | _ => ((spellingsOf switches).filter fun entry => entry.2.toList == word.take 2, some ⟨false, word.drop 2⟩)

/-- What a word before the marker is. -/
def classify (switches : List (Switch ι)) (word : String) : Except UsageError (Word ι) :=
  let chars := word.toList
  let isLong := chars.take 2 == ['-', '-']
  match chars with
  | '-' :: _ :: _ =>
    match find? switches chars with
    | some s => .ok (.switch s isLong none)
    | none =>
      let (start, value) := splitAtEquals chars
      match value, find? switches start with
      | some value, some s => .ok (.switch s isLong (some value))
      | _, _ =>
        let (possible, value) := candidates switches chars
        match possible with
        | [] => .ok (if isNegativeNumber chars || chars.contains ' ' then .operand else .unknown)
        | [(s, _)] => .ok (.switch s isLong value)
        | several => .error (.ambiguous word (several.map (·.2)))
  | _ => .ok .operand

/-- What every word is. -/
def classifyAll (switches : List (Switch ι)) : List String → Except UsageError (List (String × Word ι))
  | [] => .ok []
  | word :: rest =>
    if word = "--" then .ok ((word, .marker) :: rest.map (·, .operand))
    else do
      let kind ← classify switches word
      return (word, kind) :: (← classifyAll switches rest)

/-- Where the reader stands with respect to the group of operands: it has not begun, it has, or it is closed. -/
inductive Group where
  | awaited
  | begun
  | closed
deriving DecidableEq, Repr

/-- Arguments read so far. -/
structure Reading (σ : Type) where
  settings : σ
  operands : List String := []
  extras : List String := []
  group : Group := .awaited

/-- What one word gives: switches with their values, a last switch that still needs a value, and an end of the word
    that is set aside. -/
structure Given (ι : Type) where
  switches : List (Switch ι × Option String)
  needy : Option (Switch ι) := none
  aside : Option String := none

/-- The same behind a switch without a value. -/
def Given.behind (s : Switch ι) (g : Given ι) : Given ι :=
  { g with switches := (s, none) :: g.switches }

variable {σ ε : Type} (custom : Custom) (switches : List (Switch ι)) (single : Bool)
  (refuse : UsageError → ε) (take : σ → Switch ι → Option String → Except ε σ)

/-- A switch and the characters attached to it. A switch that takes a value takes all of them; short switches that take
    none may be written together behind one dash. -/
def unbundle (s : Switch ι) (isLong byEquals : Bool) : List Char → Except UsageError (Given ι)
  | [] => if s.takesValue then .ok { switches := [(s, some "")] } else .error (.valueIgnored s.name "")
  | c :: rest =>
    if s.takesValue then .ok { switches := [(s, some (String.ofList (c :: rest)))] }
    else if isLong || custom = .present && (byEquals || c = '-') then
      .error (.valueIgnored s.name (String.ofList (c :: rest)))
    else match find? switches ['-', c] with
      | none =>
        match custom with
        | .former => .error (.valueIgnored s.name (String.ofList (c :: rest)))
        | .present => .ok { switches := [(s, none)], aside := some (String.ofList ('-' :: c :: rest)) }
      | some next =>
        match rest with
        | [] =>
          if next.takesValue then .ok { switches := [(s, none)], needy := some next }
          else .ok { switches := [(s, none), (next, none)] }
        | d :: more =>
          if custom = .present ∧ d = '=' then (unbundle next false true more).map (Given.behind s)
          else (unbundle next false false (d :: more)).map (Given.behind s)

/-- What the word of a switch gives. -/
def given (s : Switch ι) (isLong : Bool) : Option Attached → Except UsageError (Given ι)
  | none =>
    if s.takesValue then .ok { switches := [], needy := some s } else .ok { switches := [(s, none)] }
  | some ⟨byEquals, chars⟩ => unbundle custom switches s isLong byEquals chars

/-- Takes switches in order, and sets the end of their word aside if it is to be. -/
def takeAll (r : Reading σ) (given : List (Switch ι × Option String)) (aside : Option String) :
    Except ε (Reading σ) := do
  let settings ← given.foldlM (fun settings (s, value) => take settings s (custom.value? value)) r.settings
  return { r with
    settings
    extras := r.extras ++ aside.toList
    group := if r.group = .begun then .closed else r.group }

/-- Takes an operand, or sets it aside. -/
def Reading.operand (r : Reading σ) (word : String) : Reading σ :=
  match r.group with
  | .awaited => { r with operands := r.operands ++ [word], group := .begun }
  | .begun =>
    if single then { r with extras := r.extras ++ [word], group := .closed }
    else { r with operands := r.operands ++ [word] }
  | .closed => { r with extras := r.extras ++ [word] }

/-- Passes over the marker, or sets it aside if there is no group of operands that it could belong to. -/
def Reading.marker (r : Reading σ) (word : String) : Reading σ :=
  match r.group with
  | .awaited => r
  | .begun => if single then { r with group := .closed } else r
  | .closed => { r with extras := r.extras ++ [word] }

/-- Reads classified words in order. -/
def readWords (r : Reading σ) : List (String × Word ι) → Except ε (Reading σ)
  | [] => .ok r
  | (word, .operand) :: rest => readWords (r.operand single word) rest
  | (word, .marker) :: rest => readWords (r.marker single word) rest
  | (word, .unknown) :: rest =>
    readWords { r with extras := r.extras ++ [word], group := if r.group = .begun then .closed else r.group } rest
  | (_, .switch s isLong attached) :: rest =>
    match given custom switches s isLong attached with
    | .error error => .error (refuse error)
    | .ok ⟨given, none, aside⟩ => do readWords (← takeAll custom take r given aside) rest
    | .ok ⟨given, some needy, aside⟩ =>
      match rest with
      | (value, .operand) :: rest => do
        readWords (← takeAll custom take r (given ++ [(needy, some value)]) aside) rest
      | _ => .error (refuse (.valueExpected needy.name))

/-- Reads the arguments of a command: the settings that its switches make, and its operands. `take` carries out one
    switch with the value that was given to it, and may end the reading; `single` tells that there is at most one
    operand. -/
def readArguments (start : σ) (words : List String) : Except ε (σ × List String) :=
  match classifyAll switches words with
  | .error error => .error (refuse error)
  | .ok kinds => do
    let r ← readWords custom switches single refuse take { settings := start } kinds
    match r.extras with
    | [] => return (r.settings, r.operands)
    | extras => .error (refuse (.unrecognized extras))

end

end StackCalc.Command
