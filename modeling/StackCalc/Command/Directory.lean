import StackCalc.Command.Files

/-!
The files of a directory that holds no further directories, for a command that runs in it. A path is followed name by
name: only `.` and `..` lead on, and nothing is known to exist beyond the directory.
-/

namespace StackCalc.Command

namespace Path

/-- The longest name of a file and the longest path, in bytes. -/
def longestName : Nat := 255

@[inherit_doc longestName]
def longestPath : Nat := 4095

/-- The names between the slashes of a path, after a name `latest` that is under way, the latest character first. -/
def namesFrom (latest : List Char) : List Char → List String
  | [] => if latest.isEmpty then [] else [String.ofList latest.reverse]
  | c :: rest =>
    if c = '/' then (if latest.isEmpty then [] else [String.ofList latest.reverse]) ++ namesFrom [] rest
    else namesFrom (c :: latest) rest

/-- The names of a path in order. -/
def names (path : String) : List String :=
  namesFrom [] path.toList

/-- Whether a path begins at the root of all directories. -/
def isAbsolute (path : String) : Bool :=
  path.toList.head? = some '/'

/-- Whether a path ends with a slash, as only a directory's may. -/
def endsWithSlash (path : String) : Bool :=
  path.toList.getLast? = some '/'

/-- Names that lead from a directory to a directory. -/
def isStep (name : String) : Bool :=
  name == "." || name == ".."

def isTooLong (name : String) : Bool :=
  longestName < name.utf8ByteSize

end Path

/-- Where the last name of a path is looked up: in the directory of the command, or in one of which nothing is
    known. -/
inductive Place where
  | here
  | elsewhere
deriving DecidableEq, Repr

/-- Named texts. -/
abbrev Directory := List (String × String)

namespace Directory

/-- Whether there is a file of some name at a place. -/
def has (d : Directory) (place : Place) (name : String) : Bool :=
  place = .here && (d.lookup name).isSome

/-- Goes on from a place to the directory of some name. -/
def enter (d : Directory) (path : String) (place : Place) (name : String) : Except PathError Place :=
  if name = "." then .ok place
  else if name = ".." then .ok .elsewhere
  else if Path.isTooLong name then .error (.tooLong path)
  else if d.has place name then .error (.notADirectory path)
  else .error (.notFound path)

/-- The place and the last name to which a path leads. The path of a directory leads to none. -/
def follow (d : Directory) (path : String) : Except PathError (Place × String) :=
  if path.toList.contains '\x00' then .error .nullCharacter
  else if Path.longestPath < path.utf8ByteSize then .error (.tooLong path)
  else do
    let start := if Path.isAbsolute path then Place.elsewhere else .here
    let place ← (Path.names path).dropLast.foldlM (d.enter path) start
    match (Path.names path).getLast? with
    | some name => if Path.isStep name then .error (.isADirectory path) else .ok (place, name)
    | none => .error (if Path.isAbsolute path then .isADirectory path else .notFound path)

/-- What keeps a path from being used: it is none of a file, its last name is too long, or it leads elsewhere. -/
def fault? (d : Directory) (access : Access) (path : String) : Place × String → Option PathError
  | (place, name) =>
    let slash := match access with
      | .reading => if d.has place name then some (.notADirectory path) else none
      | .writing => some (.isADirectory path)
    if Path.endsWithSlash path && slash.isSome then slash
    else if Path.isTooLong name then some (.tooLong path)
    else match place with
      | .here => none
      | .elsewhere => some (.notFound path)

/-- The files of a directory. -/
def files (d : Directory) : Files (Place × String) where
  lead := d.follow
  fault? := d.fault?
  texts := d.map fun (name, text) => ((.here, name), text)

end Directory

end StackCalc.Command
