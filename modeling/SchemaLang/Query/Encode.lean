import SchemaLang.Text.Percent
import SchemaLang.Value.Json

/-!
# Values as query strings

A value is written as one pair of key and text for every leaf.  The key is the way to the leaf:
the names of members and the indices of items, joined by points.  Members are written in the order
of their names, and an empty container is a leaf without text.
-/

namespace SchemaLang.Query

/-- Puts a member in its place among members sorted by name, after those of the same name. -/
def insertByName {α : Type} (name : String) (a : α) : List (String × α) → List (String × α)
  | [] => [(name, a)]
  | (k, b) :: rest =>
    if k ≤ name then (k, b) :: insertByName name a rest else (name, a) :: (k, b) :: rest

/-- Members in the order of their names. -/
def sortByName {α : Type} (members : List (String × α)) : List (String × α) :=
  members.foldl (fun sorted m => insertByName m.1 m.2 sorted) []

def joinKey (parent : Option String) (key : String) : String :=
  match parent with
  | none => key
  | some parent => parent ++ "." ++ key

/-- A leaf; at the top it is written without a key. -/
def leafPair (parent : Option String) (text : String) : String :=
  match parent with
  | none => text
  | some parent => parent ++ "=" ++ text

/-- An empty container has nothing to be written at the top. -/
def emptyPairs : Option String → List String
  | none => []
  | some parent => [parent ++ "="]

/-- The pairs of a value, for every key it may stand under. -/
abbrev Pairs := Option String → List String

mutual

def pairs : Value → Pairs
  | .array [] => emptyPairs
  | .array (v :: items) => fun parent => itemPairs 0 (v :: items) parent
  | .object [] => emptyPairs
  | .object (e :: entries) => fun parent =>
    (sortByName (memberPairs (e :: entries))).flatMap fun m =>
      m.2 (some (joinKey parent (Text.Percent.encode m.1)))
  | v => fun parent => [leafPair parent (Text.Percent.encode v.bareText)]

def itemPairs (i : Nat) : List Value → Pairs
  | [], _ => []
  | v :: items, parent =>
    pairs v (some (joinKey parent (toString i))) ++ itemPairs (i + 1) items parent

/-- The members of an object by the text of their keys. -/
def memberPairs : List (Key × Value) → List (String × Pairs)
  | [] => []
  | (k, v) :: entries => (k.toText, pairs v) :: memberPairs entries

end

def encode (v : Value) : String := "&".intercalate (pairs v none)

end SchemaLang.Query
