import SchemaLang.Json.Printer
import SchemaLang.Load

/-!
# Command-line arguments

There are two commands, `compile` and `validate`.  An option has a long name and may have a letter;
the value of one that takes a value follows it, as the next argument or after an equals sign, or
directly after the letter.  Letters of options without values may share an argument.  After `--`
nothing is an option.

Whatever does not follow these rules is a usage error.
-/

namespace SchemaLang.CommandLine

structure OptionSpec where
  name : String
  letter : Option Char := none
  takesValue : Bool := true

inductive Item
  | option (name value : String)
  | flag (name : String)
  | positional (text : String)
  deriving DecidableEq

/-- An argument of this form is not taken as the value of an option before it. -/
def looksLikeOption (arg : String) : Bool :=
  match arg.toList with
  | '-' :: _ :: _ => true
  | _ => false

/-- The value of an option that has none attached. -/
def nextValue? : List String → Option (String × List String)
  | [] => none
  | arg :: args => if looksLikeOption arg then none else some (arg, args)

/-- The name of a long option and the value attached to it. -/
def splitAttached (cs : List Char) : String × Option String :=
  let name := String.ofList (cs.takeWhile (· ≠ '='))
  match cs.dropWhile (· ≠ '=') with
  | [] => (name, none)
  | _ :: value => (name, some (String.ofList value))

def long? (specs : List OptionSpec) (cs : List Char) (args : List String) :
    Option (Item × List String) := do
  let (name, attached) := splitAttached cs
  let spec ← specs.find? fun s => s.name == name
  match spec.takesValue, attached with
  | true, some value => some (.option name value, args)
  | true, none => do
    let (value, args) ← nextValue? args
    some (.option name value, args)
  | false, none => some (.flag name, args)
  | false, some _ => none

/-- An equals sign may stand between a letter and its value. -/
def attachedValue : List Char → String
  | '=' :: cs => String.ofList cs
  | cs => String.ofList cs

def letters? (specs : List OptionSpec) (args : List String) :
    List Char → Option (List Item × List String)
  | [] => some ([], args)
  | c :: cs => do
    let spec ← specs.find? fun s => s.letter == some c
    if spec.takesValue then
      if cs.isEmpty then
        let (value, args) ← nextValue? args
        some ([.option spec.name value], args)
      else some ([.option spec.name (attachedValue cs)], args)
    else
      let (items, args) ← letters? specs args cs
      some (.flag spec.name :: items, args)

/-- The options and positional arguments in their order; every round takes an argument. -/
def itemsFor (specs : List OptionSpec) : Nat → List String → Option (List Item)
  | 0, _ => some []
  | _ + 1, [] => some []
  | count + 1, arg :: args =>
    match arg.toList with
    | ['-', '-'] => some (args.map .positional)
    | '-' :: '-' :: cs => do
      let (item, args) ← long? specs cs args
      let items ← itemsFor specs count args
      some (item :: items)
    | '-' :: c :: cs => do
      let (first, args) ← letters? specs args (c :: cs)
      let items ← itemsFor specs count args
      some (first ++ items)
    | _ => do
      let items ← itemsFor specs count args
      some (.positional arg :: items)

def items? (specs : List OptionSpec) (args : List String) : Option (List Item) :=
  itemsFor specs args.length args

def values (items : List Item) (name : String) : List String :=
  items.filterMap fun
    | .option n v => if n = name then some v else none
    | _ => none

def positionals (items : List Item) : List String :=
  items.filterMap fun
    | .positional text => some text
    | _ => none

/-- An option that may be given once. -/
def single? (items : List Item) (name : String) : Option (Option String) :=
  match values items name with
  | [] => some none
  | [v] => some (some v)
  | _ => none

def flag? (items : List Item) (name : String) : Option Bool :=
  match items.count (.flag name) with
  | 0 => some false
  | 1 => some true
  | _ => none

/-- A path has at least one character. -/
def paths? (paths : List String) : Option (List String) :=
  if paths.any String.isEmpty then none else some paths

inductive Command
  | version
  | compile (paths : List String) (output : Option String) (title : String)
      (layout : Json.Layout) (extension : String)
  | validate (schemas : List String) (type : String) (inputs : List String) (extension : String)

def compileOptions : List OptionSpec := [
  { name := "output", letter := some 'o' },
  { name := "title", letter := some 't' },
  { name := "compact", takesValue := false },
  { name := "extension" }]

def validateOptions : List OptionSpec := [
  { name := "schema", letter := some 's' },
  { name := "type", letter := some 't' },
  { name := "extension" }]

def defaultTitle : String := "Schema Markdown"

def compile? (args : List String) : Option Command := do
  let items ← items? compileOptions args
  let paths ← paths? (positionals items)
  let output ← single? items "output"
  let _ ← paths? output.toList
  let title ← single? items "title"
  let compact ← flag? items "compact"
  let extension ← single? items "extension"
  pure (.compile paths output (title.getD defaultTitle) (if compact then .compact else .pretty)
    (extension.getD defaultExtension))

def validate? (args : List String) : Option Command := do
  let items ← items? validateOptions args
  let schemas ← paths? (values items "schema")
  let inputs ← paths? (positionals items)
  let type ← single? items "type"
  let extension ← single? items "extension"
  match schemas, type with
  | [], _ => none
  | _, none => none
  | _, some type => pure (.validate schemas type inputs (extension.getD defaultExtension))

/-- The command that arguments ask for. -/
def Command.parse? : List String → Option Command
  | [] => none
  | arg :: args =>
    if arg = "--version" ∨ "-V".toList.isPrefixOf arg.toList then some .version
    else if arg = "compile" then compile? args
    else if arg = "validate" then validate? args
    else none

/-- The paths that a command reads from. -/
def Command.sources : Command → List String
  | .version => []
  | .compile paths _ _ _ _ => paths
  | .validate schemas _ inputs _ => schemas ++ inputs

/-- The path that a command writes to. -/
def Command.output? : Command → Option String
  | .compile _ output _ _ _ => output
  | _ => none

def Command.readsInput : Command → Bool
  | .version => false
  | .compile paths _ _ _ _ => paths.isEmpty
  | .validate _ _ inputs _ => inputs.isEmpty

end SchemaLang.CommandLine
