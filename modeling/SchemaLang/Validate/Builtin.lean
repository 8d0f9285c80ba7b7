import SchemaLang.Calendar.Parser
import SchemaLang.Model.Basic
import SchemaLang.Value.Basic

/-!
# Values of the builtin types

Each builtin type takes its own values as they are, and reads some others as one of them: texts
of numbers, truth values, dates, moments and identifiers, and whole numbers that are written as
the other kind of number.
-/

namespace SchemaLang

/-- The 64-bit integer that a number is, if it is one and not the least. -/
def int64OfFloat? (x : Float) : Option Int64 :=
  (Number.integral? x).bind fun n => if n.natAbs < Nat.pow 2 63 then some (Int64.ofInt n) else none

/-- A finite number that a text stands for. -/
def finite? (s : String) : Option Float :=
  (Number.float? (Text.trim s.toList)).bind fun x => if x.isFinite then some x else none

def Builtin.convert? : Builtin → Value → Option Value
  | .any, v => some v
  | .object, v => some v
  | .string, .string s => some (.string s)
  | .int, .int n => some (.int n)
  | .int, .string s => (Number.int64? (Text.trim s.toList)).map .int
  | .int, .float x => (int64OfFloat? x).map .int
  | .float, .float x => some (.float x)
  | .float, .int n => some (.float (Float.ofInt n.toInt))
  | .float, .string s => (finite? s).map .float
  | .bool, .bool b => some (.bool b)
  | .bool, .string s =>
    if s = "true" then some (.bool true) else if s = "false" then some (.bool false) else none
  | .date, .date d => some (.date d)
  | .date, .string s => (Date.parse? s).map .date
  | .datetime, .moment m => some (.moment m)
  | .datetime, .string s => (Moment.parse? s).map .moment
  | .uuid, .uuid u => some (.uuid u)
  | .uuid, .string s => (Uuid.parse? s).map .uuid
  | _, _ => none

end SchemaLang
