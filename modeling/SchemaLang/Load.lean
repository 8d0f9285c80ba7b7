import SchemaLang.Compile
import SchemaLang.Files.Glob

/-!
# Loading schema files

A path is a schema file, or a directory of which every entry at any depth is loaded whose name ends
in the extension, in the order of their paths.  Wildcards in the extension count, in the path they
do not.  Loading stops at the first file that cannot be read; what was loaded before stays.
-/

namespace SchemaLang

open Files

inductive LoadFailure
  | file (path : String) (error : FileError)
  | pattern (fault : PatternFault)
  deriving DecidableEq

namespace LoadFailure

/-- The cause alone. -/
def cause : LoadFailure → String
  | file _ error => error.message
  | pattern fault => fault.message

def message : LoadFailure → String
  | file path error => path ++ ": " ++ error.message
  | pattern fault => "invalid schema path pattern: " ++ fault.message

end LoadFailure

/-- The extension of schema files. -/
def defaultExtension : String := ".scm"

/-- The pattern of the files that are loaded from a directory. -/
def schemaPattern (directory extension : String) : List Char :=
  Pattern.escape directory.toList ++ "/**/*".toList ++ extension.toList

/-- The files to be loaded for a path. -/
def schemaFiles (root : Node) (path extension : String) : Except LoadFailure (List String) :=
  if root.hasDirectory path then
    match root.glob (schemaPattern path extension) with
    | .ok paths => .ok (sortPaths paths)
    | .error fault => .error (.pattern fault)
  else .ok [path]

namespace Compilation

/-- Loads files one after the other. -/
def loadFiles (root : Node) (c : Compilation) : List String → Compilation × Option LoadFailure
  | [] => (c, none)
  | path :: paths =>
    match root.readText path with
    | .ok text => loadFiles root (c.read path text) paths
    | .error error => (c, some (.file path error))

def load (root : Node) (path extension : String) (c : Compilation) :
    Compilation × Option LoadFailure :=
  match schemaFiles root path extension with
  | .ok paths => c.loadFiles root paths
  | .error failure => (c, some failure)

end Compilation

end SchemaLang
