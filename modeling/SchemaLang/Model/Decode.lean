import SchemaLang.Model.Encode

/-!
# Type models from JSON

A record is read from an object, whose other members do not matter, or from an array that lists
its fields in their order, the last ones left out if they need not be there.  Null stands for an
absent field.  A choice is an object with one member, named for the alternative.
-/

namespace SchemaLang

namespace Decode

/-- The fields of a record by their names. -/
abbrev Record := String → Option Json

def record? (fields : List String) : Json → Option Record
  | .object members => some fun name => Entries.get? name members
  | .array items =>
    if items.length ≤ fields.length then some fun name => items[fields.idxOf name]? else none
  | _ => none

def required? {α : Type} (r : Record) (name : String) (f : Json → Option α) : Option α :=
  (r name).bind f

/-- A field that may be absent; fails if it is there and cannot be read. -/
def optional? {α : Type} (r : Record) (name : String) (f : Json → Option α) : Option (Option α) :=
  match r name with
  | none => some none
  | some .null => some none
  | some json => (f json).map some

/-- An absent flag is not set; null is no flag. -/
def flag? (r : Record) (name : String) : Option Bool :=
  match r name with
  | none => some false
  | some (.bool b) => some b
  | some _ => none

def string? : Json → Option String
  | .string s => some s
  | _ => none

def list? {α : Type} (f : Json → Option α) : Json → Option (List α)
  | .array items => items.mapM f
  | _ => none

def float? : Json → Option Float
  | .integer n => some (Float.ofInt n)
  | .float x => some x
  | _ => none

def uint64? : Json → Option UInt64
  | .integer n => if 0 ≤ n ∧ n < UInt64.size then some (UInt64.ofNat n.toNat) else none
  | _ => none

def bounds? {α : Type} (r : Record) (measure : Measure) (f : Json → Option α) :
    Option (Bounds α) := do
  let eq ← optional? r (Comparison.eq.fieldName measure) f
  let lt ← optional? r (Comparison.lt.fieldName measure) f
  let lte ← optional? r (Comparison.lte.fieldName measure) f
  let gt ← optional? r (Comparison.gt.fieldName measure) f
  let gte ← optional? r (Comparison.gte.fieldName measure) f
  pure { eq, lt, lte, gt, gte }

def attributeFields : List String :=
  "nullable" :: (Comparison.all.map (Comparison.fieldName .number)
    ++ Comparison.all.map (Comparison.fieldName .length))

def attributes? (json : Json) : Option Attributes := do
  let r ← record? attributeFields json
  let nullable ← flag? r "nullable"
  let number ← bounds? r .number float?
  let length ← bounds? r .length uint64?
  pure { nullable, number, length }

/-- The name of a builtin type, which may also be the one member, null, of an object. -/
def builtin? : Json → Option Builtin
  | .string name => Builtin.ofName? name
  | .object [(name, .null)] => Builtin.ofName? name
  | _ => none

def arrayFields : List String := ["type", "attr"]

def dictFields : List String := ["type", "attr", "keyType", "keyAttr"]

mutual

def type? : Json → Option TypeRef
  | .object [(tag, body)] =>
    if tag = "builtin" then (builtin? body).map .builtin
    else if tag = "user" then (string? body).map .user
    else if tag = "array" then arrayType? body
    else if tag = "dict" then dictType? body
    else none
  | _ => none

def arrayType? (json : Json) : Option TypeRef := do
  let r ← record? arrayFields json
  let element ← match json with
    | .object members => typeMember? "type" members
    | .array items => typeItem? 0 items
    | _ => none
  let attr ← optional? r "attr" attributes?
  pure (.array (← element) attr)

def dictType? (json : Json) : Option TypeRef := do
  let r ← record? dictFields json
  let (value, key) ← match json with
    | .object members => do
      let value ← typeMember? "type" members
      let key ← typeMember? "keyType" members
      some (value, key)
    | .array items => do
      let value ← typeItem? 0 items
      let key ← typeItem? 2 items
      some (value, key)
    | _ => none
  let attr ← optional? r "attr" attributes?
  let keyAttr ← optional? r "keyAttr" attributes?
  pure (.dict (← value) attr key keyAttr)

/-- The type in a member; an absent member and null are no type. -/
def typeMember? (name : String) : List (String × Json) → Option (Option TypeRef)
  | [] => some none
  | (k, json) :: members =>
    if k = name then
      match json with
      | .null => some none
      | json => (type? json).map some
    else typeMember? name members

/-- The type at a place of an array. -/
def typeItem? : Nat → List Json → Option (Option TypeRef)
  | _, [] => some none
  | 0, json :: _ =>
    match json with
    | .null => some none
    | json => (type? json).map some
  | n + 1, _ :: items => typeItem? n items

end

def member? (json : Json) : Option Member := do
  let r ← record? ["name", "doc", "type", "attr", "optional"] json
  let name ← required? r "name" string?
  let doc ← optional? r "doc" (list? string?)
  let type ← required? r "type" type?
  let attr ← optional? r "attr" attributes?
  let optional ← flag? r "optional"
  pure { name, doc, type, attr, optional }

def struct? (json : Json) : Option Struct := do
  let r ← record? ["name", "doc", "docGroup", "union", "bases", "members"] json
  let name ← required? r "name" string?
  let doc ← optional? r "doc" (list? string?)
  let docGroup ← optional? r "docGroup" string?
  let union ← flag? r "union"
  let bases ← optional? r "bases" (list? string?)
  let members ← optional? r "members" (list? member?)
  pure { name, doc, docGroup, union, bases, members }

def enumValue? (json : Json) : Option EnumValue := do
  let r ← record? ["name", "doc"] json
  let name ← required? r "name" string?
  let doc ← optional? r "doc" (list? string?)
  pure { name, doc }

def enum? (json : Json) : Option Enum := do
  let r ← record? ["name", "doc", "docGroup", "bases", "values"] json
  let name ← required? r "name" string?
  let doc ← optional? r "doc" (list? string?)
  let docGroup ← optional? r "docGroup" string?
  let bases ← optional? r "bases" (list? string?)
  let values ← optional? r "values" (list? enumValue?)
  pure { name, doc, docGroup, bases, values }

def typedef? (json : Json) : Option Typedef := do
  let r ← record? ["name", "doc", "docGroup", "type", "attr"] json
  let name ← required? r "name" string?
  let doc ← optional? r "doc" (list? string?)
  let docGroup ← optional? r "docGroup" string?
  let type ← required? r "type" type?
  let attr ← optional? r "attr" attributes?
  pure { name, doc, docGroup, type, attr }

def url? (json : Json) : Option Url := do
  let r ← record? ["method", "path"] json
  let method ← optional? r "method" string?
  let path ← optional? r "path" string?
  pure { method, path }

def action? (json : Json) : Option Action := do
  let r ← record? ("name" :: "doc" :: "docGroup" :: "urls" :: Section.all.map Section.name) json
  let name ← required? r "name" string?
  let doc ← optional? r "doc" (list? string?)
  let docGroup ← optional? r "docGroup" string?
  let urls ← optional? r "urls" (list? url?)
  let path ← optional? r "path" string?
  let query ← optional? r "query" string?
  let input ← optional? r "input" string?
  let output ← optional? r "output" string?
  let errors ← optional? r "errors" string?
  pure { name, doc, docGroup, urls, path, query, input, output, errors }

def definition? : Json → Option Definition
  | .object [(tag, body)] =>
    if tag = "struct" then (struct? body).map .struct
    else if tag = "enum" then (enum? body).map .enum
    else if tag = "typedef" then (typedef? body).map .typedef
    else if tag = "action" then (action? body).map .action
    else none
  | _ => none

end Decode

open Decode

def Types.ofJson? : Json → Option Types
  | .object members =>
    (members.mapM fun (m : String × Json) => (definition? m.2).map fun d => (m.1, d)).map
      NameMap.ofList
  | _ => none

def TypeModel.ofJson? (json : Json) : Option TypeModel := do
  let r ← record? ["title", "types"] json
  let title ← required? r "title" string?
  let types ← required? r "types" Types.ofJson?
  pure { title, types }

end SchemaLang
