import SchemaLang.Number.Reading
import SchemaLang.Text.Percent
import SchemaLang.Text.Space
import SchemaLang.Value.Basic

/-!
# Query strings as values

Every pair puts a text at the end of the way that its key writes.  A container is made where the
way first needs one: an array if it goes on with index 0, else an object.  An array grows by one
item at a time, and no place is taken twice.

Null stands for a place that nothing has been put at yet; no null is left in the end.
-/

namespace SchemaLang.Query

inductive Problem
  | invalidPair (pair : String)
  | invalidIndex (index key : String)
  | duplicateKey (key : String)
  deriving DecidableEq, Repr

namespace Problem

def maxText : Nat := 100

def quoted (s : String) : String := "'" ++ Text.truncate maxText s ++ "'"

def message : Problem → String
  | invalidPair pair => "Invalid key/value pair " ++ quoted pair
  | invalidIndex index key => "Invalid array index " ++ quoted index ++ " in key " ++ quoted key
  | duplicateKey key => "Duplicate key " ++ quoted key

end Problem

/-- What keeps a text from being put at its place. -/
inductive Conflict
  | index (segment : String)
  | taken
  deriving DecidableEq

/-- The index that a segment writes, if it is one of an array's items or the next one. -/
def index? (segment : String) (length : Nat) : Option Nat :=
  (Number.int64? segment.toList).bind fun n =>
    if 0 ≤ n.toInt ∧ n.toInt.toNat ≤ length then some n.toInt.toNat else none

/-- The container that a way goes into at a place. -/
def containerFor (segment : String) : Value → Value
  | .null => if segment = "0" then .array [] else .object []
  | v => v

/-- Puts a text at the end of a way into a value. -/
def place (text : String) : List String → Value → Except Conflict Value
  | [], .null => .ok (.string text)
  | [], _ => .error .taken
  | segment :: way, v =>
    match containerFor segment v with
    | .array items =>
      match index? segment items.length with
      | none => .error (.index segment)
      | some i => do
        let w ← place text way (items.getD i .null)
        pure (.array (items.take i ++ w :: items.drop (i + 1)))
    | .object entries => do
      let w ← place text way ((Entries.get? (.text segment) entries).getD .null)
      pure (.object (Entries.put (.text segment) w entries))
    | _ => .error .taken

/-- One pair of a query. -/
inductive Pair
  | empty
  /-- The key and the text as they are written. -/
  | leaf (key text : List Char)
  /-- Not exactly one equals sign. -/
  | other (pair : List Char)
  deriving DecidableEq

def Pair.ofChars (pair : List Char) : Pair :=
  if pair.isEmpty then .empty
  else
    match Text.splitAt '=' pair with
    | [key, text] => .leaf key text
    | _ => .other pair

def unquote (cs : List Char) : String := Text.Percent.decode (String.ofList cs)

/-- The way that a key writes. -/
def way (key : List Char) : List String := (Text.splitAt '.' key).map unquote

def Conflict.problem (key : String) : Conflict → Problem
  | index segment => .invalidIndex segment key
  | taken => .duplicateKey key

def putLeaf (v : Value) (key text : List Char) : Except Problem Value :=
  (place (unquote text) (way key) v).mapError (Conflict.problem (String.ofList key))

/-- Puts pairs one after the other.  A last pair that is none is an anchor. -/
def putAll (v : Value) : List (List Char) → Except Problem Value
  | [] => .ok v
  | pair :: rest =>
    match Pair.ofChars pair with
    | .empty => putAll v rest
    | .leaf key text => do
      let v ← putLeaf v key text
      putAll v rest
    | .other pair =>
      if rest.isEmpty then .ok v else .error (.invalidPair (String.ofList pair))

/-- An empty query is an empty object. -/
def decode (query : String) : Except Problem Value :=
  (putAll .null (Text.splitAt '&' query.toList)).map fun v => if v.isNull then .object [] else v

end SchemaLang.Query
