import StackCalc.Text.Quoted

/-!
Files as commands reach them. Directories, links and permissions decide where a path leads and what may be done there.
They are not changed by a command, which does no more than read a file and put a text into one.
-/

namespace StackCalc.Command

/-- Why a path cannot be read or written. -/
inductive PathError where
  | notFound (path : String)
  | notADirectory (path : String)
  | isADirectory (path : String)
  | tooLong (path : String)
  /-- No path holds the null character. -/
  | nullCharacter
  /-- A path was asked for and left empty. -/
  | noPath
  /-- Any other refusal, such as a lack of permission. -/
  | refused (message : String)
deriving DecidableEq, Repr

def PathError.message : PathError → String
  | notFound path => "[Errno 2] No such file or directory: " ++ Text.quoted path
  | notADirectory path => "[Errno 20] Not a directory: " ++ Text.quoted path
  | isADirectory path => "[Errno 21] Is a directory: " ++ Text.quoted path
  | tooLong path => "[Errno 36] File name too long: " ++ Text.quoted path
  | nullCharacter => "embedded null byte"
  | noPath => "expected str, bytes or os.PathLike object, not list"
  | refused message => message

/-- What is to be done with a file. -/
inductive Access where
  | reading
  | writing
deriving DecidableEq, Repr

/-- Texts at the places of files. Several paths may lead to one place. -/
structure Files (κ : Type) where
  /-- The place to which a path leads, with a file or without one. -/
  lead : String → Except PathError κ
  /-- What keeps a path from being used, once it is known where it leads. -/
  fault? : Access → String → κ → Option PathError
  texts : List (κ × String) := []

namespace Files

variable {κ : Type} [DecidableEq κ]

/-- The text of the file to which a path leads. -/
def read (f : Files κ) (path : String) : Except PathError String := do
  let place ← f.lead path
  match f.fault? .reading path place, f.texts.lookup place with
  | some error, _ => .error error
  | none, some text => .ok text
  | none, none => .error (.notFound path)

/-- Replaces the text at a place, or adds a file there. -/
def put (place : κ) (text : String) : List (κ × String) → List (κ × String)
  | [] => [(place, text)]
  | (other, old) :: rest => if other = place then (place, text) :: rest else (other, old) :: put place text rest

/-- The files after a text has been written to the place to which a path leads. -/
def write (f : Files κ) (path text : String) : Except PathError (Files κ) := do
  let place ← f.lead path
  match f.fault? .writing path place with
  | some error => .error error
  | none => .ok { f with texts := put place text f.texts }

end Files

end StackCalc.Command
