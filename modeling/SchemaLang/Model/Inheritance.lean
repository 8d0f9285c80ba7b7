import SchemaLang.Model.Alias

/-!
# Inheritance

Structs inherit members and enums inherit values from their bases.  The walk lists the items of
the bases, in the order of the bases and each one's own bases first, before the items of the
definition itself.  A base whose name has been entered before, on whatever way, is a repetition: the
walk ends there, and what it has listed so far stays listed.

* `Heritage.run_enter`, `Heritage.run_list`: a task is done before the tasks after it.
-/

namespace SchemaLang

/-- Definitions that inherit items of type `α` from bases of their own kind. -/
structure Heritage (δ α : Type) where
  name : δ → String
  bases : δ → List String
  items : δ → List α
  ofDefinition? : Definition → Option δ

def Struct.heritage : Heritage Struct Member where
  name := Struct.name
  bases s := s.bases.getD []
  items s := s.members.getD []
  ofDefinition? := Definition.struct?

def Enum.heritage : Heritage Enum EnumValue where
  name := Enum.name
  bases e := e.bases.getD []
  items e := e.values.getD []
  ofDefinition? := Definition.enum?

/-- What an inheritance walk lists, and whether it met a base again. -/
structure Walk (α : Type) where
  items : List α
  repeats : Bool

namespace Heritage

variable {δ α : Type}

/-- What is still to be done on a walk. -/
inductive Task (δ : Type)
  | enter (base : String)
  | list (definition : δ)

def tasks (h : Heritage δ α) (definition : δ) : List (Task δ) :=
  (h.bases definition).map .enter ++ [.list definition]

/-- The definition that a base name stands for, if it is one of the right kind. -/
def base? (h : Heritage δ α) (types : Types) (base : String) : Option δ :=
  (types.effectiveDefinition? base).bind h.ofDefinition?

/-- Does the tasks in order up to the first base to be entered; `enter` goes on from there.  A
base whose name is not in `unseen` has been entered before. -/
def runWith (h : Heritage δ α) (types : Types) (unseen : List String)
    (enter : String → List (Task δ) → Walk α) : List (Task δ) → Walk α
  | [] => ⟨[], false⟩
  | .list definition :: rest =>
    let walk := runWith h types unseen enter rest
    ⟨h.items definition ++ walk.items, walk.repeats⟩
  | .enter base :: rest =>
    match h.base? types base with
    | none => runWith h types unseen enter rest
    | some definition =>
      if h.name definition ∈ unseen then enter (h.name definition) (h.tasks definition ++ rest)
      else ⟨[], true⟩

/-- At most `count` bases are entered. -/
def runFor (h : Heritage δ α) (types : Types) : Nat → List String → List (Task δ) → Walk α
  | 0, unseen => runWith h types unseen fun _ _ => ⟨[], true⟩
  | count + 1, unseen => runWith h types unseen fun name => runFor h types count (unseen.erase name)

/-- Does the tasks in order; `unseen` holds the names of the definitions not yet entered. -/
def run (h : Heritage δ α) (types : Types) (unseen : List String) : List (Task δ) → Walk α :=
  runFor h types unseen.length unseen

theorem run_enter {h : Heritage δ α} {types : Types} {unseen : List String} {base : String}
    {definition : δ} {rest : List (Task δ)} (hb : h.base? types base = some definition)
    (hm : h.name definition ∈ unseen) :
    h.run types unseen (.enter base :: rest)
      = h.run types (unseen.erase (h.name definition)) (h.tasks definition ++ rest) := by
  have hl := List.length_erase_of_mem hm
  have hp := List.length_pos_of_mem hm
  obtain ⟨count, hc⟩ : ∃ count, unseen.length = count + 1 := ⟨unseen.length - 1, by omega⟩
  rw [run, run, hl, hc, runFor, runWith]
  simp [hb, hm]

theorem run_list (h : Heritage δ α) (types : Types) (unseen : List String) (definition : δ)
    (rest : List (Task δ)) :
    h.run types unseen (.list definition :: rest)
      = ⟨h.items definition ++ (h.run types unseen rest).items,
          (h.run types unseen rest).repeats⟩ := by
  rw [run]
  cases unseen.length <;> rfl

end Heritage

namespace Types

/-- The names that definitions give themselves, each once. -/
def ownNames (types : Types) : List String := (types.entries.map fun e => e.2.name).eraseDups

def walk {δ α : Type} (types : Types) (h : Heritage δ α) (definition : δ) : Walk α :=
  h.run types types.ownNames (h.tasks definition)

/-- The members of a struct, inherited ones first. -/
def members (types : Types) (s : Struct) : List Member := (types.walk Struct.heritage s).items

/-- The values of an enum, inherited ones first. -/
def values (types : Types) (e : Enum) : List EnumValue := (types.walk Enum.heritage e).items

end Types

end SchemaLang
