import SchemaLang.Json.Basic
import SchemaLang.Number.Shortest

/-!
# Writing JSON

Two layouts: without any blank, and with one member or item a line, indented by four spaces.
Only the quote, the backslash and the control characters below U+0020 are escaped.
-/

namespace SchemaLang.Json

inductive Layout
  | pretty
  | compact
  deriving DecidableEq, Repr

def hexDigit (n : Nat) : Char := Nat.digitChar n

def escape (c : Char) : List Char :=
  if c = '"' then ['\\', '"']
  else if c = '\\' then ['\\', '\\']
  else if c = '\x08' then ['\\', 'b']
  else if c = '\t' then ['\\', 't']
  else if c = '\n' then ['\\', 'n']
  else if c = '\x0c' then ['\\', 'f']
  else if c = '\r' then ['\\', 'r']
  else if c.toNat < 0x20 then
    ['\\', 'u', '0', '0', hexDigit (c.toNat / 16), hexDigit (c.toNat % 16)]
  else [c]

def quote (s : String) : List Char := '"' :: (s.toList.flatMap escape ++ ['"'])

def integerText (n : Int) : List Char :=
  Number.signed (n < 0) (Nat.toDigits 10 n.natAbs)

mutual

def compact : Json → List Char
  | .null => "null".toList
  | .bool true => "true".toList
  | .bool false => "false".toList
  | .integer n => integerText n
  | .float x => (Number.floatText x).toList
  | .string s => quote s
  | .array items => '[' :: (compactItems items ++ [']'])
  | .object members => '\x7b' :: (compactMembers members ++ ['\x7d'])

def compactItems : List Json → List Char
  | [] => []
  | [v] => compact v
  | v :: items => compact v ++ ',' :: compactItems items

def compactMembers : List (String × Json) → List Char
  | [] => []
  | [(k, v)] => quote k ++ ':' :: compact v
  | (k, v) :: members => quote k ++ ':' :: (compact v ++ ',' :: compactMembers members)

end

def newLine (level : Nat) : List Char := '\n' :: List.replicate (4 * level) ' '

mutual

/-- The text of a value that stands at a nesting level; its first line is not indented. -/
def pretty (level : Nat) : Json → List Char
  | .null => "null".toList
  | .bool true => "true".toList
  | .bool false => "false".toList
  | .integer n => integerText n
  | .float x => (Number.floatText x).toList
  | .string s => quote s
  | .array [] => ['[', ']']
  | .array (v :: items) => '[' :: (prettyItems (level + 1) (v :: items) ++ newLine level ++ [']'])
  | .object [] => ['\x7b', '\x7d']
  | .object (m :: members) =>
    '\x7b' :: (prettyMembers (level + 1) (m :: members) ++ newLine level ++ ['\x7d'])

def prettyItems (level : Nat) : List Json → List Char
  | [] => []
  | [v] => newLine level ++ pretty level v
  | v :: items => newLine level ++ pretty level v ++ ',' :: prettyItems level items

def prettyMembers (level : Nat) : List (String × Json) → List Char
  | [] => []
  | [(k, v)] => newLine level ++ quote k ++ ':' :: ' ' :: pretty level v
  | (k, v) :: members =>
    newLine level ++ quote k ++ ':' :: ' ' :: (pretty level v ++ ',' :: prettyMembers level members)

end

def render (layout : Layout) (v : Json) : String :=
  String.ofList (match layout with | .pretty => pretty 0 v | .compact => compact v)

end SchemaLang.Json
