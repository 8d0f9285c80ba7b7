import SchemaLang.Model.Inheritance

/-!
# The part of a model that a definition needs

`Types.reachable` follows members, elements, keys, bases, typedef targets and the types of actions
from a name, and `Types.restrict` keeps the definitions found.

* `Types.explore_cons_of_mem`, `Types.explore_cons_of_not_mem`: how the search goes on from a name.
-/

namespace SchemaLang

/-- The names that a definition mentions. -/
def Definition.mentioned : Definition → List String
  | .struct s => s.bases.getD [] ++ (s.members.getD []).flatMap fun m => m.type.mentioned
  | .enum e => e.bases.getD []
  | .typedef t => t.type.mentioned
  | .action a => Section.all.filterMap a.type?

namespace Types

/-- Passes over pending names up to the first that is in `unseen`; `enter` goes on from there. -/
def exploreWith (unseen : List String) (enter : String → List String → List String) :
    List String → List String
  | [] => []
  | name :: pending =>
    if name ∈ unseen then name :: enter name pending else exploreWith unseen enter pending

/-- At most `count` names are entered. -/
def exploreFor (types : Types) : Nat → List String → List String → List String
  | 0, unseen => exploreWith unseen fun _ _ => []
  | count + 1, unseen => exploreWith unseen fun name pending =>
    exploreFor types count (unseen.erase name)
      ((types.get? name).elim [] Definition.mentioned ++ pending)

/-- The names met from the pending ones; each name in `unseen` is entered at most once. -/
def explore (types : Types) (unseen : List String) : List String → List String :=
  exploreFor types unseen.length unseen

theorem explore_cons_of_mem {types : Types} {unseen : List String} {name : String}
    {pending : List String} (hm : name ∈ unseen) :
    types.explore unseen (name :: pending)
      = name :: types.explore (unseen.erase name)
          ((types.get? name).elim [] Definition.mentioned ++ pending) := by
  have hl := List.length_erase_of_mem hm
  have hp := List.length_pos_of_mem hm
  obtain ⟨count, hc⟩ : ∃ count, unseen.length = count + 1 := ⟨unseen.length - 1, by omega⟩
  rw [explore, explore, hl, hc, exploreFor, exploreWith]
  simp [hm]

theorem explore_cons_of_not_mem {types : Types} {unseen : List String} {name : String}
    {pending : List String} (hm : name ∉ unseen) :
    types.explore unseen (name :: pending) = types.explore unseen pending := by
  rw [explore]
  cases unseen.length <;> simp [exploreFor, exploreWith, hm]

/-- The defined names that can be reached from a name, itself among them if it is defined. -/
def reachable (types : Types) (name : String) : List String := types.explore types.names [name]

/-- The definitions that can be reached from a name. -/
def restrict (types : Types) (name : String) : Types :=
  let reached := types.reachable name
  types.filter fun n => reached.contains n

end Types

end SchemaLang
