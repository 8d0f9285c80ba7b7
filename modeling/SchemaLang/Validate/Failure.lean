import SchemaLang.Model.Bound
import SchemaLang.Value.Json
import SchemaLang.Text.Space

/-!
# Why a value is refused

A failure says where in the value it lies by the segments of a path, outermost first: the names of
members, the texts of dict keys and the indices of items.
-/

namespace SchemaLang

abbrev Path := List String

namespace Path

def join (path : Path) : String := ".".intercalate path

/-- A path to the whole value has no text. -/
def text? (path : Path) : Option String := if path.isEmpty then none else some path.join

end Path

/-- Why a value is not accepted where it stands. -/
inductive Cause
  /-- The value is not read as one of the type. -/
  | kind
  /-- No type of that name is defined. -/
  | undefinedType
  /-- The type is an alias that only leads back to itself. -/
  | circularAlias
  /-- Null is not allowed there. -/
  | null
  /-- A bound is not met. -/
  | bound (b : Bound)
  /-- The value has no measure that the bound could be about. -/
  | unmeasured (b : Bound)
  deriving DecidableEq

/-- The bound that a value fails to meet. -/
def Cause.bound? : Cause → Option Bound
  | bound b => some b
  | unmeasured b => some b
  | _ => none

inductive Failure
  /-- There is no type of that name to validate against. -/
  | unknownType (name : String)
  /-- A value is not accepted as one of the type expected. -/
  | invalid (value : Value) (path : Path) (expected : String) (cause : Cause)
  | missingMember (path : Path)
  | unknownMember (path : Path)

namespace Failure

def maxValueText : Nat := 1000

def maxMemberText : Nat := 100

def quoted (s : String) : String := "'" ++ s ++ "'"

def message : Failure → String
  | unknownType name => "Unknown type " ++ quoted name
  | invalid value path expected cause =>
    "Invalid value " ++ Text.truncate maxValueText value.text
      ++ " (type " ++ quoted value.kind ++ ")"
      ++ (path.text?.elim "" fun p => " for member " ++ quoted p)
      ++ ", expected type " ++ quoted expected
      ++ (cause.bound?.elim "" fun b => " [" ++ b.describe ++ "]")
  | missingMember path => "Required member " ++ quoted path.join ++ " missing"
  | unknownMember path => "Unknown member " ++ Text.truncate maxMemberText (quoted path.join)

/-- The member that a failure about a value is about. -/
def member? : Failure → Option String
  | invalid _ path _ _ => path.text?
  | _ => none

end Failure

end SchemaLang
