import SchemaLang.CommandLine.Arguments
import SchemaLang.Json.Parser
import SchemaLang.Model.Encode
import SchemaLang.Validate

/-!
# Running commands

`compile` writes the type model that schemas define, `validate` the values that JSON documents stand
for.  A run is a function of the arguments, the standard input and the files; its outcome says what
is printed, the exit code and the files afterwards.  The code is 2 for a usage error and 1 for any
other error.
-/

namespace SchemaLang.CommandLine

open Files

structure Outcome where
  code : UInt8 := 0
  output : String := ""
  errors : String := ""
  files : Node

def line (text : String) : String := text ++ "\n"

def versionText : String := "schema-markdown 0.1.0"

/-- Ends with an error. -/
def failed (files : Node) (output errors : String) : Outcome :=
  { code := 1, output, errors, files }

/-- The cause of a failure is repeated after its message. -/
def loadError (f : LoadFailure) : String := line ("error: " ++ f.message ++ ": " ++ f.cause)

/-- What the standard input holds, unless it is no text. -/
abbrev Input := Except FileError String

def inputError (e : FileError) : String := line ("error: reading stdin: " ++ e.message)

def loadAll (files : Node) (extension : String) (c : Compilation) :
    List String → Except String Compilation
  | [] => .ok c
  | path :: paths =>
    match c.load files path extension with
    | (c, none) => loadAll files extension c paths
    | (_, some failure) => .error (loadError failure)

/-- The type model of the schemas, or the text of the errors.  Without paths the schema is the
standard input. -/
def loadSchemas (files : Node) (input : Input) (paths : List String) (extension : String) :
    Except String Types := do
  let c ← match paths with
    | [] =>
      match input with
      | .ok text => pure (({} : Compilation).read "" text)
      | .error e => .error (inputError e)
    | paths => loadAll files extension {} paths
  let c := c.finish
  if c.errors.isEmpty then pure c.types else .error (line ("\n".intercalate c.errors))

def runCompile (files : Node) (input : Input) (paths : List String) (output : Option String)
    (title : String) (layout : Json.Layout) (extension : String) : Outcome :=
  match loadSchemas files input paths extension with
  | .error errors => failed files "" errors
  | .ok types =>
    let text := line (TypeModel.render layout { title, types })
    match output with
    | none => { output := text, files }
    | some path =>
      match files.write path (Text.toBytes text) with
      | .ok files => { files }
      | .error e => failed files "" (line ("error: writing " ++ path ++ ": " ++ e.message))

/-- The documents to be validated, by name. -/
def documents (files : Node) (input : Input) :
    List String → Except String (List (String × String))
  | [] =>
    match input with
    | .ok text => .ok [("<stdin>", text)]
    | .error e => .error (inputError e)
  | paths => paths.mapM fun path =>
    match files.readText path with
    | .ok text => .ok (path, text)
    | .error e => .error (line ("error: reading " ++ path ++ ": " ++ e.message))

def faultText : Json.Fault → String
  | .endOfText => "EOF while parsing a value"
  | .malformed => "expected value"
  | .tooDeep => "recursion limit exceeded"
  | .outOfRange => "number out of range"

/-- The line, and the bytes in it, at which a text ends. -/
def endPlace (text : String) : Nat × Nat :=
  let lines := Text.splitAt '\n' text.toList
  (lines.length, (String.ofList (lines.getLast?.getD [])).utf8ByteSize)

def jsonError (name text : String) (fault : Json.Fault) : String :=
  let (lineNumber, column) := endPlace text
  line ("error: " ++ name ++ ": invalid JSON: " ++ faultText fault ++ " at line "
    ++ toString lineNumber ++ " column " ++ toString column)

/-- Validates documents one after the other; a document that is no JSON ends the run. -/
def validateAll (types : Types) (type : String) (o : Outcome) : List (String × String) → Outcome
  | [] => o
  | (name, text) :: rest =>
    match Json.parse text with
    | .error fault => { o with code := 1, errors := o.errors ++ jsonError name text fault }
    | .ok json =>
      match types.validateAs type (Value.ofJson json) with
      | .ok v => validateAll types type { o with output := o.output ++ line v.text } rest
      | .error failure =>
        let message := line (name ++ ": error: " ++ failure.message)
        validateAll types type { o with code := 1, errors := o.errors ++ message } rest

def runValidate (files : Node) (input : Input) (schemas : List String) (type : String)
    (inputs : List String) (extension : String) : Outcome :=
  match loadSchemas files input schemas extension with
  | .error errors => failed files "" errors
  | .ok types =>
    match documents files input inputs with
    | .error errors => failed files "" errors
    | .ok docs => validateAll types type { files } docs

def Command.run (files : Node) (input : Input) : Command → Outcome
  | .version => { output := line versionText, files }
  | .compile paths output title layout extension =>
    runCompile files input paths output title layout extension
  | .validate schemas type inputs extension =>
    runValidate files input schemas type inputs extension

/-- A run of the program; what it prints about a usage error is not part of the outcome. -/
def run (files : Node) (input : Input) (args : List String) : Outcome :=
  match Command.parse? args with
  | some command => command.run files input
  | none => { code := 2, files }

end SchemaLang.CommandLine
