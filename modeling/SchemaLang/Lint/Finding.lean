import SchemaLang.Model.Basic

/-!
# Findings

What the linter can find wrong with a type model, and how it says so.  A finding belongs to a
type and, where it is about one, to a member of it.
-/

namespace SchemaLang

/-- The kinds of definitions that have bases. -/
inductive BaseKind
  | struct
  | enum
  deriving DecidableEq, Repr

def BaseKind.name : BaseKind → String
  | .struct => "struct"
  | .enum => "enum"

/-- What the items of such a definition are called. -/
def BaseKind.itemName : BaseKind → String
  | .struct => "member"
  | .enum => "value"

inductive Problem
  /-- The name that a definition gives itself is not the one it is defined under. -/
  | inconsistentName (own : String)
  | invalidBase (kind : BaseKind) (base : String)
  | redefinition (kind : BaseKind) (item : String)
  | circularBase
  | circularTypedef
  | unknownType (name : String)
  /-- An action is no type. -/
  | actionReference (name : String)
  | invalidDictKey
  /-- The values of the type have no such measure. -/
  | invalidAttribute (bound : Bound)
  deriving DecidableEq

structure Finding where
  type : String
  member : Option String := none
  problem : Problem
  deriving DecidableEq

namespace Finding

def quoted (s : String) : String := "'" ++ s ++ "'"

/-- Where a type is used. -/
def place (f : Finding) : String :=
  " from " ++ quoted f.type ++ (f.member.elim "" fun m => " member " ++ quoted m)

def message (f : Finding) : String :=
  match f.problem with
  | .inconsistentName own => "Inconsistent type name " ++ quoted own ++ " for " ++ quoted f.type
  | .invalidBase kind base => "Invalid " ++ kind.name ++ " base type " ++ quoted base
  | .redefinition kind item =>
    "Redefinition of " ++ quoted f.type ++ " " ++ kind.itemName ++ " " ++ quoted item
  | .circularBase => "Circular base type detected for type " ++ quoted f.type
  | .circularTypedef => "Circular typedef detected for type " ++ quoted f.type
  | .unknownType name => "Unknown type " ++ quoted name ++ f.place
  | .actionReference name => "Invalid reference to action " ++ quoted name ++ f.place
  | .invalidDictKey => "Invalid dictionary key type" ++ f.place
  | .invalidAttribute bound => "Invalid attribute " ++ quoted bound.describe ++ f.place

/-- The order of findings by type, member and message; one without a member comes first. -/
def le (f g : Finding) : Bool :=
  if f.type = g.type then
    if f.member = g.member then f.message ≤ g.message
    else
      match f.member, g.member with
      | none, _ => true
      | some _, none => false
      | some m, some n => m ≤ n
  else f.type ≤ g.type

end Finding

end SchemaLang
