import SchemaLang.Lint.Finding
import SchemaLang.Model.Alias

/-!
# Sites

A site is a type as it is used, with the attributes it has there.  The types inside an array or a
dict are sites too, once aliases are followed, and `Site.problems` says what is wrong with one of
them.

A typedef may be an array or a dict of itself.  `Types.sites?` goes into every alias that it comes
to, one call inside the other, so no number of calls is enough for such a typedef.  `Types.sites`
lists the sites until a typedef comes round again: where `Types.sites?` has an answer, it is this
one.
-/

namespace SchemaLang

structure Site where
  type : TypeRef
  attr : Option Attributes

namespace Types

/-- The sites of a type, inner ones first, if there is room for as many calls, one inside the other.
No record is kept of the aliases on the way. -/
def sites? (types : Types) : Nat → TypeRef → Option Attributes → Option (List Site)
  | 0, _, _ => none
  | room + 1, .array element elementAttr, attr => do
    let inner ← sites? types room (types.effective element) elementAttr
    pure (inner ++ [⟨.array element elementAttr, attr⟩])
  | room + 1, .dict value valueAttr none keyAttr, attr => do
    let inner ← sites? types room (types.effective value) valueAttr
    pure (inner ++ [⟨.dict value valueAttr none keyAttr, attr⟩])
  | room + 1, .dict value valueAttr (some key) keyAttr, attr => do
    let inner ← sites? types room (types.effective value) valueAttr
    let keys ← sites? types room (types.effective key) keyAttr
    pure (inner ++ keys ++ [⟨.dict value valueAttr (some key) keyAttr, attr⟩])
  | _ + 1, ty, attr => some [⟨ty, attr⟩]

/-- The sites of a type.  Where an alias is followed to what is inside a container, `follow` lists
the sites there, given the names of the typedefs that have not been entered on the way. -/
def sitesWith (types : Types) (unseen : List String)
    (follow : List String → TypeRef → Option Attributes → List Site) :
    TypeRef → Option Attributes → List Site
  | .array element elementAttr, attr =>
    (match types.chase unseen element with
      | ([], _) => sitesWith types unseen follow element elementAttr
      | (aliases, target) =>
        follow (unseen.filter (· ∉ aliases.map Prod.fst)) target elementAttr)
    ++ [⟨.array element elementAttr, attr⟩]
  | .dict value valueAttr none keyAttr, attr =>
    (match types.chase unseen value with
      | ([], _) => sitesWith types unseen follow value valueAttr
      | (aliases, target) =>
        follow (unseen.filter (· ∉ aliases.map Prod.fst)) target valueAttr)
    ++ [⟨.dict value valueAttr none keyAttr, attr⟩]
  | .dict value valueAttr (some key) keyAttr, attr =>
    (match types.chase unseen value with
      | ([], _) => sitesWith types unseen follow value valueAttr
      | (aliases, target) =>
        follow (unseen.filter (· ∉ aliases.map Prod.fst)) target valueAttr)
    ++ (match types.chase unseen key with
      | ([], _) => sitesWith types unseen follow key keyAttr
      | (aliases, target) =>
        follow (unseen.filter (· ∉ aliases.map Prod.fst)) target keyAttr)
    ++ [⟨.dict value valueAttr (some key) keyAttr, attr⟩]
  | ty, attr => [⟨ty, attr⟩]

/-- Aliases are followed at most `count` times. -/
def sitesFor (types : Types) : Nat → List String → TypeRef → Option Attributes → List Site
  | 0, unseen => sitesWith types unseen fun _ _ _ => []
  | count + 1, unseen => sitesWith types unseen (sitesFor types count)

/-- The sites of a type, inner ones first. -/
def sites (types : Types) (ty : TypeRef) (attr : Option Attributes) : List Site :=
  types.sitesFor types.size types.names ty attr

end Types

/-- What bounds on the values of a type, aliases followed, can be about. -/
def TypeRef.measure? : TypeRef → Option Measure
  | .builtin .int => some .number
  | .builtin .float => some .number
  | .builtin .string => some .length
  | .array _ _ => some .length
  | .dict _ _ _ _ => some .length
  | _ => none

namespace Site

def referenceProblems (types : Types) (s : Site) : List Problem :=
  match s.type with
  | .user name =>
    match types.get? name with
    | none => [.unknownType name]
    | some (.action _) => [.actionReference name]
    | some _ => []
  | _ => []

/-- The keys of a dict are texts, all of them or those of an enum. -/
def isKeyType (types : Types) : TypeRef → Bool
  | .builtin .string => true
  | .user name =>
    match types.get? name with
    | some (.enum _) => true
    | _ => false
  | _ => false

def keyProblems (types : Types) (s : Site) : List Problem :=
  match s.type with
  | .dict _ _ (some key) _ =>
    if isKeyType types (types.effective key) then [] else [.invalidDictKey]
  | _ => []

def attributeProblems (types : Types) (s : Site) : List Problem :=
  match s.attr with
  | none => []
  | some attr =>
    let measure := (types.effective s.type).measure?
    (attr.bounds.filter fun b => measure ≠ some b.measure).map .invalidAttribute

def problems (types : Types) (s : Site) : List Problem :=
  s.referenceProblems types ++ s.keyProblems types ++ s.attributeProblems types

end Site

end SchemaLang
