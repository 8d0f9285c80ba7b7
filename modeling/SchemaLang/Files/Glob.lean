import SchemaLang.Files.Pattern
import SchemaLang.Files.Tree

/-!
# Finding files

`Node.glob` finds the paths that a pattern describes, component by component.  A component
without wildcards is followed as it is, any other is compared with the names of the entries.  Names
that start with a point are found like all others.
-/

namespace SchemaLang.Files

/-- The path of an entry of a directory.  The working directory is not part of it. -/
def joinPath (parent name : String) : String :=
  if parent = "." then name
  else if parent.toList.getLast? = some '/' then parent ++ name
  else parent ++ "/" ++ name

/-- A file or directory found, by its path. -/
structure Found where
  path : String
  name : String
  isDirectory : Bool

mutual

/-- Everything below a directory, with the paths it has there. -/
def Node.descendants (path : String) : Node → List Found
  | .file _ => []
  | .directory entries => descendantsOf path entries

def Node.descendantsOf (path : String) : List (String × Node) → List Found
  | [] => []
  | (name, node) :: entries =>
    let here := joinPath path name
    ⟨here, name, node.isDirectory⟩ :: (Node.descendants here node ++ descendantsOf path entries)

end

namespace Node

/-- Everything below the directory at a path. -/
def inside (root : Node) (path : String) : List Found :=
  descendantsOf path (root.entriesAt path)

/-- The names `.` and `..`, which no directory lists, are tried for patterns that start with a
point. -/
def specialNames (p : Pattern) : List String :=
  if p.head? = some (.char '.') then [".", ".."].filter fun name => p.accepts name.toList else []

/-- The paths that patterns, one for a component, describe from a path on.  With `deep` the next
component may be any number of directories further down. -/
def expand (root : Node) : Bool → List Pattern → String → List String
  | false, [], path => [path]
  | true, [], path => ((inside root path).filter Found.isDirectory).map Found.path
  | deep, p :: rest, path =>
    if p.isRecursive then expand root true rest path
    else if deep then
      ((inside root path).filter fun f => p.accepts f.name.toList).flatMap fun f =>
        expand root false rest f.path
    else
      match p.literal? with
      | some chars =>
        let name := String.ofList chars
        let next := joinPath path name
        let special := name == "." || name == ".."
        if (special && root.hasDirectory path) || (!special && root.has next) then
          expand root false rest next
        else []
      | none =>
        (((root.entriesAt path).filter fun e => p.accepts e.1.toList).map (joinPath path ·.1)
          ++ (if root.hasDirectory path then specialNames p else []).map (joinPath path)).flatMap
            (expand root false rest)

end Node

/-- The components of a pattern; a slash at the end only asks for directories. -/
def patternComponents (text : List Char) : List (List Char) :=
  let pieces := Text.splitAt '/' text
  if pieces.getLast? = some [] then pieces.dropLast else pieces

/-- The paths that a pattern describes, or what is wrong with the pattern. -/
def Node.glob (root : Node) (text : List Char) : Except PatternFault (List String) := do
  let _ ← Pattern.parse text
  let (start, inner) := match text with
    | '/' :: cs => ("/", cs)
    | cs => (".", cs)
  let patterns ← (patternComponents inner).mapM Pattern.parse
  let paths := root.expand false patterns start
  pure (if text.getLast? = some '/' then paths.filter root.hasDirectory else paths)

/-! ## The order of paths -/

/-- The components that tell paths apart; the way up comes before every name. -/
def sortKey (path : String) : List String :=
  ((components path).filter fun c => c ≠ "" ∧ c ≠ ".").map fun c => if c = ".." then "" else c

/-- The order by components, not by characters. -/
def pathLe (a b : String) : Bool := !(decide (sortKey b < sortKey a))

def sortPaths (paths : List String) : List String := paths.mergeSort pathLe

end SchemaLang.Files
