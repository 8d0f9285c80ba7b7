import SchemaLang.Entries
import SchemaLang.Text.Space
import SchemaLang.Text.Utf8

/-!
# File trees

A tree of directories and files, as far as they are known.  Paths are looked up component by
component from the root of the tree: an empty component and `.` stay in a directory, `..` goes to
the directory above.  Above the root there is only what an entry named `..` says.
-/

namespace SchemaLang.Files

inductive Node
  | file (content : List UInt8)
  | directory (entries : List (String × Node))

/-- What an operation on files can fail with. -/
inductive FileError
  | notFound
  | notDirectory
  | isDirectory
  | notText
  deriving DecidableEq, Repr

def FileError.message : FileError → String
  | .notFound => "No such file or directory (os error 2)"
  | .notDirectory => "Not a directory (os error 20)"
  | .isDirectory => "Is a directory (os error 21)"
  | .notText => "stream did not contain valid UTF-8"

def components (path : String) : List String :=
  (Text.splitAt '/' path.toList).map String.ofList

namespace Node

def empty : Node := .directory []

def isDirectory : Node → Bool
  | .directory _ => true
  | .file _ => false

/-- The node under the names of directories and a last entry. -/
def descend : List String → Node → Option Node
  | [], node => some node
  | name :: names, .directory entries =>
    match Entries.get? name entries with
    | some node => descend names node
    | none => none
  | _ :: _, .file _ => none

/-- The names from the root that the components of a path lead to. -/
def namesFrom (root : Node) (names : List String) : List String → Except FileError (List String)
  | [] => .ok names
  | step :: steps =>
    match root.descend names with
    | some (.directory entries) =>
      if step = "" ∨ step = "." then namesFrom root names steps
      else if step = ".." ∧ names ≠ [] then namesFrom root names.dropLast steps
      else if (Entries.get? step entries).isSome then namesFrom root (names ++ [step]) steps
      else .error .notFound
    | some (.file _) => .error .notDirectory
    | none => .error .notFound

def lookup (root : Node) (path : String) : Except FileError Node := do
  let names ← if path.isEmpty then .error .notFound else namesFrom root [] (components path)
  match root.descend names with
  | some node => pure node
  | none => .error .notFound

def has (root : Node) (path : String) : Bool := (root.lookup path).isOk

def hasDirectory (root : Node) (path : String) : Bool :=
  match root.lookup path with
  | .ok node => node.isDirectory
  | .error _ => false

/-- The entries of a directory; nothing else has any. -/
def entriesAt (root : Node) (path : String) : List (String × Node) :=
  match root.lookup path with
  | .ok (.directory entries) => entries
  | _ => []

def readBytes (root : Node) (path : String) : Except FileError (List UInt8) := do
  match ← root.lookup path with
  | .file content => pure content
  | .directory _ => .error .isDirectory

def readText (root : Node) (path : String) : Except FileError String := do
  let bytes ← root.readBytes path
  (Text.ofBytes? bytes).elim (.error .notText) .ok

/-- Puts a node under names; the directories on the way are made if need be. -/
def plant (new : Node) : List String → Node → Node
  | [], _ => new
  | name :: names, node =>
    let entries := match node with
      | .directory entries => entries
      | .file _ => []
    .directory (Entries.put name (plant new names ((Entries.get? name entries).getD empty)) entries)

/-- Writes a file into a directory that is there. -/
def write (root : Node) (path : String) (content : List UInt8) : Except FileError Node :=
  match root.lookup path with
  | .ok (.directory _) => .error .isDirectory
  | .ok (.file _) => do
    let names ← namesFrom root [] (components path)
    pure (plant (.file content) names root)
  | .error .notFound => do
    if path.isEmpty then .error .notFound
    else
      let steps := components path
      let names ← namesFrom root [] steps.dropLast
      match root.descend names, steps.getLast? with
      | some (.directory _), some "" => .error .isDirectory
      | some (.directory _), some name => pure (plant (.file content) (names ++ [name]) root)
      | some (.file _), _ => .error .notDirectory
      | _, _ => .error .notFound
  | .error e => .error e

end Node

end SchemaLang.Files
