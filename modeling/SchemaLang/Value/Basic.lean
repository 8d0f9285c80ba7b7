import SchemaLang.Calendar.Basic
import SchemaLang.Entries
import SchemaLang.Uuid

/-!
# Values

What a schema validates: the values of JSON, with whole numbers of 64 bits kept apart from the
others, and beyond JSON the dates, moments and identifiers that texts are read as.  An object may
have an entry under the null key, which is not the text `null`.
-/

namespace SchemaLang

inductive Key
  | null
  | text (s : String)
  deriving DecidableEq, Repr

def Key.toText : Key → String
  | .null => "null"
  | .text s => s

inductive Value
  | null
  | bool (b : Bool)
  | int (n : Int64)
  | float (x : Float)
  | string (s : String)
  | date (d : Date)
  | moment (m : Moment)
  | uuid (u : Uuid)
  | array (items : List Value)
  | object (entries : List (Key × Value))

namespace Value

instance : Inhabited Value := ⟨.null⟩

/-- The name of a value's kind in messages. -/
def kind : Value → String
  | .null => "null"
  | .bool _ => "bool"
  | .int _ => "int"
  | .float _ => "float"
  | .string _ => "string"
  | .date _ => "date"
  | .moment _ => "datetime"
  | .uuid _ => "uuid"
  | .array _ => "array"
  | .object _ => "object"

def isNull : Value → Bool
  | .null => true
  | _ => false

/-- Whether a value is the text that is read as null where null is allowed. -/
def isNullText : Value → Bool
  | .string s => s == "null"
  | _ => false

/-- The characters of a text, the items of an array or the entries of an object. -/
def length? : Value → Option Nat
  | .string s => some s.length
  | .array items => some items.length
  | .object entries => some entries.length
  | _ => none

def number? : Value → Option Float
  | .int n => some (Float.ofInt n.toInt)
  | .float x => some x
  | _ => none

/-- A key as a value of its own, as it is validated. -/
def ofKey : Key → Value
  | .null => .null
  | .text s => .string s

end Value

end SchemaLang
