import SchemaLang.Json.Printer
import SchemaLang.Model.Basic

/-!
# Type models as JSON

The members stand in a fixed order; what is absent and what is false is left out.
-/

namespace SchemaLang

namespace Encode

/-- A member that is there when the value is. -/
def given {α : Type} (name : String) (f : α → Json) : Option α → List (String × Json)
  | none => []
  | some a => [(name, f a)]

/-- A member that is there when the flag is set. -/
def flag (name : String) (b : Bool) : List (String × Json) :=
  if b then [(name, .bool true)] else []

def strings (texts : List String) : Json := .array (texts.map .string)

end Encode

open Encode

/-- The name of the member that holds a bound. -/
def Comparison.fieldName : Measure → Comparison → String
  | .number, .eq => "eq"
  | .number, .lt => "lt"
  | .number, .lte => "lte"
  | .number, .gt => "gt"
  | .number, .gte => "gte"
  | .length, .eq => "lenEq"
  | .length, .lt => "lenLT"
  | .length, .lte => "lenLTE"
  | .length, .gt => "lenGT"
  | .length, .gte => "lenGTE"

def Bounds.members {α : Type} (b : Bounds α) (measure : Measure) (f : α → Json) :
    List (String × Json) :=
  b.toList.map fun (c, a) => (c.fieldName measure, f a)

def Attributes.toJson (a : Attributes) : Json :=
  .object (flag "nullable" a.nullable
    ++ a.number.members .number Json.ofFloat
    ++ a.length.members .length fun n => .integer n.toNat)

namespace TypeRef

def toJson : TypeRef → Json
  | .builtin b => .object [("builtin", .string b.name)]
  | .user name => .object [("user", .string name)]
  | .array element attr =>
    .object [("array", .object (("type", element.toJson)
      :: given "attr" Attributes.toJson attr))]
  | .dict value attr none keyAttr =>
    .object [("dict", .object (("type", value.toJson)
      :: (given "attr" Attributes.toJson attr
        ++ given "keyAttr" Attributes.toJson keyAttr)))]
  | .dict value attr (some key) keyAttr =>
    .object [("dict", .object (("type", value.toJson)
      :: (given "attr" Attributes.toJson attr ++ ("keyType", key.toJson)
        :: given "keyAttr" Attributes.toJson keyAttr)))]

end TypeRef

def Member.toJson (m : Member) : Json :=
  .object (("name", .string m.name)
    :: (given "doc" strings m.doc ++ ("type", m.type.toJson)
      :: (given "attr" Attributes.toJson m.attr ++ flag "optional" m.optional)))

def Struct.toJson (s : Struct) : Json :=
  .object (("name", .string s.name)
    :: (given "doc" strings s.doc ++ given "docGroup" .string s.docGroup
      ++ flag "union" s.union ++ given "bases" strings s.bases
      ++ given "members" (fun ms => .array (ms.map Member.toJson)) s.members))

def EnumValue.toJson (v : EnumValue) : Json :=
  .object (("name", .string v.name) :: given "doc" strings v.doc)

def Enum.toJson (e : Enum) : Json :=
  .object (("name", .string e.name)
    :: (given "doc" strings e.doc ++ given "docGroup" .string e.docGroup
      ++ given "bases" strings e.bases
      ++ given "values" (fun vs => .array (vs.map EnumValue.toJson)) e.values))

def Typedef.toJson (t : Typedef) : Json :=
  .object (("name", .string t.name)
    :: (given "doc" strings t.doc ++ given "docGroup" .string t.docGroup
      ++ ("type", t.type.toJson) :: given "attr" Attributes.toJson t.attr))

def Url.toJson (u : Url) : Json :=
  .object (given "method" .string u.method ++ given "path" .string u.path)

def Action.toJson (a : Action) : Json :=
  .object (("name", .string a.name)
    :: (given "doc" strings a.doc ++ given "docGroup" .string a.docGroup
      ++ given "urls" (fun us => .array (us.map Url.toJson)) a.urls
      ++ Section.all.flatMap fun s => given s.name .string (a.type? s)))

def Definition.toJson : Definition → Json
  | .struct s => .object [("struct", s.toJson)]
  | .enum e => .object [("enum", e.toJson)]
  | .typedef t => .object [("typedef", t.toJson)]
  | .action a => .object [("action", a.toJson)]

def Types.toJson (types : Types) : Json :=
  .object (types.entries.map fun (name, d) => (name, d.toJson))

def TypeModel.toJson (m : TypeModel) : Json :=
  .object [("title", .string m.title), ("types", m.types.toJson)]

def Types.render (layout : Json.Layout) (types : Types) : String := types.toJson.render layout

def TypeModel.render (layout : Json.Layout) (m : TypeModel) : String := m.toJson.render layout

end SchemaLang
