import SchemaLang.Model.Basic

/-!
# Aliases

A typedef is an alias of the type it is defined as.  `Types.chase` follows aliases from a type
and lists the typedefs on its way; a typedef is not entered twice, so a chain that never ends
stops at the first typedef it comes back to.
-/

namespace SchemaLang

namespace Types

/-- The typedefs met from a type, first one first, and the type after them.  Only typedefs whose
names are in `unseen` are entered, each at most once. -/
def chase (types : Types) (unseen : List String) : TypeRef → List (String × Typedef) × TypeRef
  | .user name =>
    match types.get? name with
    | some (.typedef t) =>
      if name ∈ unseen then
        let (aliases, target) := chase types (unseen.erase name) t.type
        ((name, t) :: aliases, target)
      else ([], .user name)
    | _ => ([], .user name)
  | ty => ([], ty)
termination_by unseen.length
decreasing_by
  have := List.length_erase_of_mem ‹name ∈ unseen›
  have := List.length_pos_of_mem ‹name ∈ unseen›
  omega

/-- The typedefs on the way from a type, and the type they stand for. -/
def resolve (types : Types) (ty : TypeRef) : List (String × Typedef) × TypeRef :=
  types.chase types.names ty

/-- The type that a type stands for once aliases are followed. -/
def effective (types : Types) (ty : TypeRef) : TypeRef := (types.resolve ty).2

def isTypedef (types : Types) : TypeRef → Bool
  | .user name =>
    match types.get? name with
    | some (.typedef _) => true
    | _ => false
  | _ => false

/-- Whether following aliases from a type never ends. -/
def isCircular (types : Types) (ty : TypeRef) : Bool := types.isTypedef (types.effective ty)

/-- The definition that a name stands for once aliases are followed, if they end in one. -/
def effectiveDefinition? (types : Types) (name : String) : Option Definition :=
  match types.get? name with
  | some (.typedef t) =>
    match types.effective t.type with
    | .user target => types.get? target
    | _ => none
  | definition => definition

end Types

end SchemaLang
