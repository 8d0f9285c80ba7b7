import SchemaLang.Json.Printer
import SchemaLang.Value.Basic

/-!
# Values and JSON

A value is written as JSON with its dates, moments and identifiers as texts and the null key as
the text `null`.  JSON is read as a value that has none of them.
-/

namespace SchemaLang.Value

mutual

def toJson : Value → Json
  | .null => .null
  | .bool b => .bool b
  | .int n => .integer n.toInt
  | .float x => Json.ofFloat x
  | .string s => .string s
  | .date d => .string d.text
  | .moment m => .string m.text
  | .uuid u => .string u.text
  | .array items => .array (toJsonItems items)
  | .object entries => .object (Entries.ofList (toJsonMembers entries))

def toJsonItems : List Value → List Json
  | [] => []
  | v :: items => toJson v :: toJsonItems items

def toJsonMembers : List (Key × Value) → List (String × Json)
  | [] => []
  | (k, v) :: entries => (k.toText, toJson v) :: toJsonMembers entries

end

/-- A whole number that does not fit into 64 bits with a sign is rounded. -/
def ofInteger (n : Int) : Value :=
  if Int64.minValue.toInt ≤ n ∧ n ≤ Int64.maxValue.toInt then .int (Int64.ofInt n)
  else .float (Float.ofInt n)

mutual

def ofJson : Json → Value
  | .null => .null
  | .bool b => .bool b
  | .integer n => ofInteger n
  | .float x => .float x
  | .string s => .string s
  | .array items => .array (ofJsonItems items)
  | .object members => .object (ofJsonMembers members)

def ofJsonItems : List Json → List Value
  | [] => []
  | v :: items => ofJson v :: ofJsonItems items

def ofJsonMembers : List (String × Json) → List (Key × Value)
  | [] => []
  | (k, v) :: members => (.text k, ofJson v) :: ofJsonMembers members

end

def render (layout : Json.Layout) (v : Value) : String := v.toJson.render layout

/-- The text of a value in messages. -/
def text (v : Value) : String := v.render .compact

/-- The text itself where JSON writes a string, and JSON text otherwise. -/
def bareText (v : Value) : String :=
  match v.toJson with
  | .string s => s
  | json => json.render .compact

end SchemaLang.Value
