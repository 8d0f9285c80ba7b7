import SchemaLang.Model.Bound
import SchemaLang.NameMap

/-!
# Type models

A type model is a map from names to the definitions of structs (and unions, which are structs of
which exactly one member is set), enums, typedefs and actions.  Types refer to definitions by
name, so any model can be written down; which ones make sense is for the linter to say.
-/

namespace SchemaLang

inductive Builtin
  | any
  | bool
  | date
  | datetime
  | float
  | int
  | object
  | string
  | uuid
  deriving DecidableEq, Repr

namespace Builtin

def all : List Builtin :=
  [.any, .bool, .date, .datetime, .float, .int, .object, .string, .uuid]

def name : Builtin → String
  | .any => "any"
  | .bool => "bool"
  | .date => "date"
  | .datetime => "datetime"
  | .float => "float"
  | .int => "int"
  | .object => "object"
  | .string => "string"
  | .uuid => "uuid"

def ofName? (name : String) : Option Builtin := all.find? fun b => b.name == name

end Builtin

/-- A type where it is used. -/
inductive TypeRef
  | builtin (b : Builtin)
  | user (name : String)
  | array (element : TypeRef) (attr : Option Attributes)
  /-- Without a key type the keys are texts. -/
  | dict (value : TypeRef) (attr : Option Attributes) (key : Option TypeRef)
      (keyAttr : Option Attributes)

namespace TypeRef

def ofName (name : String) : TypeRef :=
  match Builtin.ofName? name with
  | some b => .builtin b
  | none => .user name

/-- The name of a type in messages. -/
def name : TypeRef → String
  | .builtin b => b.name
  | .user name => name
  | .array _ _ => "array"
  | .dict _ _ _ _ => "dict"

/-- The names of definitions that a type mentions. -/
def mentioned : TypeRef → List String
  | .builtin _ => []
  | .user name => [name]
  | .array element _ => element.mentioned
  | .dict value _ none _ => value.mentioned
  | .dict value _ (some key) _ => value.mentioned ++ key.mentioned

/-- Whether two types are written alike. -/
def same : TypeRef → TypeRef → Bool
  | .builtin b, .builtin b' => b == b'
  | .user name, .user name' => name == name'
  | .array element attr, .array element' attr' => element.same element' && attr == attr'
  | .dict value attr none keyAttr, .dict value' attr' none keyAttr' =>
    value.same value' && attr == attr' && keyAttr == keyAttr'
  | .dict value attr (some key) keyAttr, .dict value' attr' (some key') keyAttr' =>
    value.same value' && attr == attr' && key.same key' && keyAttr == keyAttr'
  | _, _ => false

theorem same_iff {a b : TypeRef} : a.same b = true ↔ a = b := by
  fun_induction same a b with
  | case1 => simp
  | case2 => simp
  | case3 _ _ _ _ ih => simp [ih]
  | case4 _ _ _ _ _ _ ih => simp [ih, and_assoc]
  | case5 _ _ _ _ _ _ _ _ ihvalue ihkey => simp [ihvalue, ihkey, and_assoc]
  | case6 a b hbuiltin huser harray hdict hkeyed =>
    -- No two equal types are left for the last case.
    refine iff_of_false Bool.false_ne_true ?_
    rintro rfl
    cases a with
    | builtin b => exact hbuiltin b b rfl rfl
    | user name => exact huser name name rfl rfl
    | array element attr => exact harray element attr element attr rfl rfl
    | dict value attr key keyAttr =>
      cases key with
      | none => exact hdict value attr keyAttr value attr keyAttr rfl rfl
      | some key => exact hkeyed value attr key keyAttr value attr key keyAttr rfl rfl

instance : DecidableEq TypeRef := fun _ _ => decidable_of_iff _ same_iff

end TypeRef

structure Member where
  name : String
  doc : Option (List String) := none
  type : TypeRef
  attr : Option Attributes := none
  optional : Bool := false
  deriving DecidableEq

structure Struct where
  name : String
  doc : Option (List String) := none
  docGroup : Option String := none
  /-- Exactly one member is set. -/
  union : Bool := false
  bases : Option (List String) := none
  members : Option (List Member) := none
  deriving DecidableEq

structure EnumValue where
  name : String
  doc : Option (List String) := none
  deriving DecidableEq

structure Enum where
  name : String
  doc : Option (List String) := none
  docGroup : Option String := none
  bases : Option (List String) := none
  values : Option (List EnumValue) := none
  deriving DecidableEq

structure Typedef where
  name : String
  doc : Option (List String) := none
  docGroup : Option String := none
  type : TypeRef
  attr : Option Attributes := none
  deriving DecidableEq

/-- Without a method all methods match; without a path the default path is meant. -/
structure Url where
  method : Option String := none
  path : Option String := none
  deriving DecidableEq

/-- The parts of an action that have types of their own. -/
inductive Section
  | path
  | query
  | input
  | output
  | errors
  deriving DecidableEq, Repr

namespace Section

def all : List Section := [.path, .query, .input, .output, .errors]

theorem mem_all (x : Section) : x ∈ all := by
  cases x <;> decide

/-- The sections whose members are given together when the action is called. -/
def inputs : List Section := [.path, .query, .input]

def name : Section → String
  | .path => "path"
  | .query => "query"
  | .input => "input"
  | .output => "output"
  | .errors => "errors"

def ofName? (name : String) : Option Section := all.find? fun s => s.name == name

end Section

/-- An action names the types of its sections. -/
structure Action where
  name : String
  doc : Option (List String) := none
  docGroup : Option String := none
  urls : Option (List Url) := none
  path : Option String := none
  query : Option String := none
  input : Option String := none
  output : Option String := none
  errors : Option String := none
  deriving DecidableEq

namespace Action

def type? (a : Action) : Section → Option String
  | .path => a.path
  | .query => a.query
  | .input => a.input
  | .output => a.output
  | .errors => a.errors

def setType (a : Action) (s : Section) (name : String) : Action :=
  match s with
  | .path => { a with path := some name }
  | .query => { a with query := some name }
  | .input => { a with input := some name }
  | .output => { a with output := some name }
  | .errors => { a with errors := some name }

theorem type?_setType (a : Action) (s t : Section) (name : String) :
    (a.setType s name).type? t = if s = t then some name else a.type? t := by
  cases s <;> cases t <;> rfl

end Action

inductive Definition
  | struct (s : Struct)
  | enum (e : Enum)
  | typedef (t : Typedef)
  | action (a : Action)
  deriving DecidableEq

namespace Definition

/-- The name that a definition gives itself. -/
def name : Definition → String
  | .struct s => s.name
  | .enum e => e.name
  | .typedef t => t.name
  | .action a => a.name

def struct? : Definition → Option Struct
  | .struct s => some s
  | _ => none

def enum? : Definition → Option Enum
  | .enum e => some e
  | _ => none

end Definition

abbrev Types := NameMap Definition

structure TypeModel where
  title : String
  types : Types

end SchemaLang
