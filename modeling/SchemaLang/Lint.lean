import SchemaLang.Lint.Site
import SchemaLang.Model.Inheritance

/-!
# The linter

`Types.lint` lists what is wrong with a type model, definition by definition in the order of
their names: names that do not agree, bases of the wrong kind, items defined twice, inheritance and
aliases that come round, unknown types and actions used as types, dict keys that are no texts, and
bounds that cannot apply.

`Types.lint?` has these findings if there is room for the calls that the linter makes, one inside
the other.  There never is where a typedef stands inside itself.
-/

namespace SchemaLang

namespace Lint

/-- The findings about a type where it is used. -/
def use (types : Types) (type : String) (member : Option String) (ty : TypeRef)
    (attr : Option Attributes) : List Finding :=
  (types.sites ty attr).flatMap fun site =>
    (site.problems types).map fun problem => { type, member, problem }

def consistency (key : String) (d : Definition) : List Finding :=
  if key = d.name then [] else [{ type := key, problem := .inconsistentName d.name }]

/-- Each item whose name an earlier one has is a redefinition; `further` are the findings about an
item itself. -/
def items {α : Type} (kind : BaseKind) (key : String) (name : α → String)
    (further : α → List Finding) (earlier : List String) : List α → List Finding
  | [] => []
  | item :: rest =>
    (if name item ∈ earlier then
      [{ type := key, member := some (name item), problem := .redefinition kind (name item) }]
    else [])
    ++ further item ++ items kind key name further (name item :: earlier) rest

def circularBase {α : Type} (key : String) (walk : Walk α) : List Finding :=
  if walk.repeats then [{ type := key, problem := .circularBase }] else []

/-- A base of a struct is a struct, and of a union a union. -/
def isStructBase (types : Types) (s : Struct) (base : String) : Bool :=
  match Struct.heritage.base? types base with
  | some b => b.union == s.union
  | none => false

def isEnumBase (types : Types) (base : String) : Bool :=
  (Enum.heritage.base? types base).isSome

def invalidBases (kind : BaseKind) (key : String) (isBase : String → Bool)
    (bases : Option (List String)) : List Finding :=
  ((bases.getD []).filter fun base => !isBase base).map fun base =>
    { type := key, problem := .invalidBase kind base }

def struct (types : Types) (key : String) (s : Struct) : List Finding :=
  let walk := types.walk Struct.heritage s
  invalidBases .struct key (isStructBase types s) s.bases
    ++ items .struct key Member.name
        (fun m => use types s.name (some m.name) m.type m.attr) [] walk.items
    ++ circularBase key walk

def enum (types : Types) (key : String) (e : Enum) : List Finding :=
  let walk := types.walk Enum.heritage e
  invalidBases .enum key (isEnumBase types) e.bases
    ++ items .enum key EnumValue.name (fun _ => []) [] walk.items
    ++ circularBase key walk

def typedef (types : Types) (key : String) (t : Typedef) : List Finding :=
  (if types.isCircular t.type then [{ type := key, problem := .circularTypedef }] else [])
    ++ use types key none t.type t.attr

/-- The member names of the struct that a section's type stands for, each with that struct's name;
nothing if its inheritance comes round. -/
def sectionMembers (types : Types) (type : String) : List (String × String) :=
  match Struct.heritage.base? types type with
  | none => []
  | some s =>
    let walk := types.walk Struct.heritage s
    if walk.repeats then [] else walk.items.map fun m => (m.name, s.name)

/-- A member name that stands more than once in the sections is a redefinition in each. -/
def clashes (members : List (String × String)) : List Finding :=
  (members.map Prod.fst).eraseDups.flatMap fun name =>
    let owners := (members.filter fun m => m.1 == name).map Prod.snd
    if 1 < owners.length then
      owners.map fun owner =>
        { type := owner, member := some name, problem := .redefinition .struct name }
    else []

def action (types : Types) (key : String) (a : Action) : List Finding :=
  (Section.all.filterMap a.type?).flatMap (fun type => use types key none (.user type) none)
    ++ clashes ((Section.inputs.filterMap a.type?).flatMap (sectionMembers types))

def definition (types : Types) (key : String) (d : Definition) : List Finding :=
  consistency key d ++
    match d with
    | .struct s => struct types key s
    | .enum e => enum types key e
    | .typedef t => typedef types key t
    | .action a => action types key a

/-- The types that the linter looks into for a definition. -/
def uses (types : Types) : Definition → List Site
  | .struct s => (types.walk Struct.heritage s).items.map fun m => ⟨m.type, m.attr⟩
  | .enum _ => []
  | .typedef t => [⟨t.type, t.attr⟩]
  | .action a => (Section.all.filterMap a.type?).map fun type => ⟨.user type, none⟩

end Lint

def Types.lint (types : Types) : List Finding :=
  types.entries.flatMap fun e => Lint.definition types e.1 e.2

/-- The findings, if there is room for the calls into the types that are looked into. -/
def Types.lint? (types : Types) (room : Nat) : Option (List Finding) :=
  if types.entries.all fun e =>
      (Lint.uses types e.2).all fun s => (types.sites? room s.type s.attr).isSome
  then some types.lint
  else none

end SchemaLang
