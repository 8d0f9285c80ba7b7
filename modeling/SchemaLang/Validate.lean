import SchemaLang.Model.Inheritance
import SchemaLang.Validate.Attributes
import SchemaLang.Validate.Builtin

/-!
# Validation

`Types.validate` checks a value against a type and answers the value that it stands for there:
texts become numbers, dates and identifiers, the text `null` becomes null where null is allowed,
and an empty text an empty array, dict or struct.  The members of a struct come out in the order
of its members, the entries of a dict in their own.  The first violation found, depth first, is the
failure.

The recursion is on the value alone.  What is inside a container is not validated at once, but
taken along as a function of the type it will be asked to have, since only the types tell which of
the entries are looked at, and as what.

* `memberChecks_eq_map`: what is taken along for the entries of an object.
-/

namespace SchemaLang

/-- What validating some value comes to, for every type and at every path. -/
abbrev Check := TypeRef → Path → Except Failure Value

namespace Validate

def refuse {α : Type} (cause : Cause) (v : Value) (ty : TypeRef) (path : Path) :
    Except Failure α :=
  .error (.invalid v path ty.name cause)

def mismatch {α : Type} (v : Value) (ty : TypeRef) (path : Path) : Except Failure α :=
  refuse .kind v ty path

/-- A value where null may be allowed: an item, an entry, a key or a member. -/
def element (v : Value) (check : Check) (ty : TypeRef) (attr : Option Attributes) (path : Path) :
    Except Failure Value := do
  let w ← if v.isNull || (allowsNull attr && v.isNullText) then .ok .null else check ty path
  checkAttributes ty attr w path
  pure w

/-- Goes through the typedefs that lead to a type; each may allow null, and each checks its own
attributes on the result. -/
def alongAliases (v : Value) (path : Path) (target : Unit → Except Failure Value) :
    List (String × Typedef) → Except Failure Value
  | [] => target ()
  | (name, t) :: aliases => do
    let w ←
      if allowsNull t.attr && (v.isNull || v.isNullText) then .ok .null
      else alongAliases v path target aliases
    checkAttributes (.user name) t.attr w path
    pure w

/-- Validates against the type that a type stands for; a typedef that only leads back to itself
stands for none. -/
def resolved (types : Types) (v : Value) (ty : TypeRef) (path : Path)
    (target : TypeRef → Except Failure Value) : Except Failure Value :=
  if types.isCircular ty then refuse .circularAlias v ty path
  else
    let (aliases, inner) := types.resolve ty
    alongAliases v path (fun _ => target inner) aliases

/-- What is known of the entries of an object: their values, and how to validate them. -/
abbrev Checks := List (Key × Value × Check)

/-- The members that an object has, in the order of the struct's members. -/
def presentMembers (s : Struct) (path : Path) (checks : Checks) :
    List Member → Except Failure (List (Key × Value))
  | [] => .ok []
  | m :: members =>
    let path' := path ++ [m.name]
    match Entries.get? (.text m.name) checks with
    | none =>
      if !m.optional && !s.union then .error (.missingMember path')
      else presentMembers s path checks members
    | some (v, check) => do
      let w ← element v check m.type m.attr path'
      let rest ← presentMembers s path checks members
      pure ((.text m.name, w) :: rest)

/-- The first key that is not the name of a member. -/
def unknownKey? (members : List Member) (keys : List Key) : Option Key :=
  keys.find? fun key => !members.any fun m => key == .text m.name

/-- Validates the entries of `v` as members of a struct. -/
def struct (types : Types) (s : Struct) (v : Value) (checks : Checks) (ty : TypeRef) (path : Path) :
    Except Failure Value :=
  if s.union && checks.length != 1 then mismatch v ty path
  else do
    let members := types.members s
    let entries := Entries.ofList (← presentMembers s path checks members)
    if entries.length = checks.length then pure (.object entries)
    else
      match unknownKey? members (Entries.keys checks) with
      | none => pure (.object entries)
      | some key => .error (.unknownMember (path ++ [key.toText]))

/-- A value that is no container, against a type that is no typedef.  An empty text is read as a
container without anything in it. -/
def flat (types : Types) (v : Value) (ty : TypeRef) (path : Path) : Except Failure Value :=
  match ty with
  | .builtin b => (b.convert? v).elim (mismatch v ty path) .ok
  | .array _ _ =>
    match v with
    | .string "" => .ok (.array [])
    | _ => mismatch v ty path
  | .dict _ _ _ _ =>
    match v with
    | .string "" => .ok (.object [])
    | _ => mismatch v ty path
  | .user name =>
    match types.get? name with
    | some (.enum e) =>
      match v with
      | .string s =>
        if (types.values e).any fun value => value.name == s then .ok v else mismatch v ty path
      | _ => mismatch v ty path
    | some (.struct s) =>
      match v with
      | .string "" => struct types s v [] ty path
      | _ => mismatch v ty path
    | _ => refuse .undefinedType v ty path

/-- A value that is no container. -/
def leaf (types : Types) (v : Value) : Check := fun ty path =>
  resolved types v ty path fun ty => flat types v ty path

/-- The key that a validated key value is. -/
def keyOf : Value → Key
  | .null => .null
  | .string s => .text s
  | v => .text v.bareText

def struct? (types : Types) : TypeRef → Option Struct
  | .user name => (types.get? name).bind Definition.struct?
  | _ => none

mutual

def value (types : Types) : Value → Check
  | .array items => fun ty path =>
    resolved types (.array items) ty path fun ty =>
      match ty with
      | .array element attr => (itemsFrom types items element attr path 0).map .array
      | ty => flat types (.array items) ty path
  | .object entries => fun ty path =>
    resolved types (.object entries) ty path fun ty =>
      match ty with
      | .dict value attr key keyAttr =>
        (dictEntries types entries value attr (key.getD (.builtin .string)) keyAttr path).map
          fun pairs => .object (Entries.ofList pairs)
      | ty =>
        match struct? types ty with
        | some s => struct types s (.object entries) (memberChecks types entries) ty path
        | none => flat types (.object entries) ty path
  | v => leaf types v

/-- The items of an array from the one with index `i` on. -/
def itemsFrom (types : Types) : List Value → TypeRef → Option Attributes → Path → Nat →
    Except Failure (List Value)
  | [], _, _, _, _ => .ok []
  | v :: items, ty, attr, path, i => do
    let w ← element v (value types v) ty attr (path ++ [toString i])
    let rest ← itemsFrom types items ty attr path (i + 1)
    pure (w :: rest)

/-- The entries of a dict.  A key is validated at the path of the dict itself. -/
def dictEntries (types : Types) : List (Key × Value) → TypeRef → Option Attributes → TypeRef →
    Option Attributes → Path → Except Failure (List (Key × Value))
  | [], _, _, _, _, _ => .ok []
  | (k, v) :: entries, ty, attr, keyType, keyAttr, path => do
    let key ← element (.ofKey k) (leaf types (.ofKey k)) keyType keyAttr path
    let w ← element v (value types v) ty attr (path ++ [k.toText])
    let rest ← dictEntries types entries ty attr keyType keyAttr path
    pure ((keyOf key, w) :: rest)

def memberChecks (types : Types) : List (Key × Value) → Checks
  | [] => []
  | (k, v) :: entries => (k, v, value types v) :: memberChecks types entries

end

theorem memberChecks_eq_map (types : Types) (entries : List (Key × Value)) :
    memberChecks types entries = entries.map fun e => (e.1, e.2, value types e.2) := by
  induction entries with
  | nil => rfl
  | cons e entries ih => rw [memberChecks, ih, List.map_cons]

end Validate

namespace Types

/-- Validates a value against a type. -/
def validate (types : Types) (ty : TypeRef) (v : Value) (path : Path) : Except Failure Value :=
  Validate.value types v ty path

/-- Validates a value against a defined type. -/
def validateAs (types : Types) (name : String) (v : Value) : Except Failure Value :=
  if types.contains name then types.validate (.user name) v [] else .error (.unknownType name)

end Types

end SchemaLang
