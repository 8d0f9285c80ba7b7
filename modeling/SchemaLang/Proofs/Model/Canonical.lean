import SchemaLang.Proofs.Bootstrap

/-!
# Canonical models

Many models can be written down that stand for the same thing, or for nothing: a list without
items beside no list, attributes that say nothing beside no attributes, a name of a builtin type as
the name of a user type.  A canonical model has one form for each, and its definitions give
themselves the names that they stand under.  Nothing is said of what types refer to, except for the
sections of actions.

* `Types.Canonical.insert`: a canonical definition keeps a model canonical.
* `Types.Canonical.filled`: lists in a canonical model are not empty.
-/

namespace SchemaLang

/-- Attributes say something, and their numbers can be compared with. -/
structure Attributes.Canonical (a : Attributes) : Prop where
  nonempty : a ≠ {}
  comparable : ∀ c x, a.number.get? c = some x → x.isNaN = false

namespace TypeRef

/-- A builtin type, or a user type that does not have the name of one. -/
def Simple : TypeRef → Prop
  | .builtin _ => True
  | .user name => Builtin.ofName? name = none
  | _ => False

/-- Containers hold simple types, and without a key type there are no attributes of keys. -/
def Canonical : TypeRef → Prop
  | .array element attr => element.Simple ∧ ∀ a ∈ attr, a.Canonical
  | .dict value attr key keyAttr =>
    (value.Simple ∧ ∀ a ∈ attr, a.Canonical) ∧ (∀ type ∈ key, type.Simple)
      ∧ (∀ a ∈ keyAttr, a.Canonical) ∧ (keyAttr ≠ none → key ≠ none)
  | type => type.Simple

theorem simple_ofName (name : String) : (ofName name).Simple := by
  rw [ofName]
  split
  · trivial
  · next h => exact h

theorem Simple.canonical {type : TypeRef} (h : type.Simple) : type.Canonical := by
  cases type with
  | builtin b => exact h
  | user name => exact h
  | array element attr => exact h.elim
  | dict value attr key keyAttr => exact h.elim

end TypeRef

structure Member.Canonical (m : Member) : Prop where
  doc : m.doc ≠ some []
  type : m.type.Canonical
  attr : ∀ a ∈ m.attr, a.Canonical

structure Struct.Canonical (s : Struct) : Prop where
  doc : s.doc ≠ some []
  bases : s.bases ≠ some []
  members : s.members ≠ some []
  member : ∀ m ∈ s.members.getD [], m.Canonical

structure Enum.Canonical (e : Enum) : Prop where
  doc : e.doc ≠ some []
  bases : e.bases ≠ some []
  values : e.values ≠ some []
  value : ∀ v ∈ e.values.getD [], v.doc ≠ some []

structure Typedef.Canonical (t : Typedef) : Prop where
  doc : t.doc ≠ some []
  type : t.type.Canonical
  attr : ∀ a ∈ t.attr, a.Canonical

structure Action.Canonical (a : Action) : Prop where
  doc : a.doc ≠ some []
  urls : a.urls ≠ some []

def Definition.Canonical : Definition → Prop
  | .struct s => s.Canonical
  | .enum e => e.Canonical
  | .typedef t => t.Canonical
  | .action a => a.Canonical

structure Types.Canonical (types : Types) : Prop where
  /-- A definition stands under its own name. -/
  name : ∀ key d, types.get? key = some d → d.name = key
  definition : ∀ key d, types.get? key = some d → d.Canonical
  /-- The type of a section is named for the action and the section, and is there. -/
  «section» : ∀ key a, types.get? key = some (.action a) → ∀ s type, a.type? s = some type →
    type = a.name ++ "_" ++ s.name ∧ types.contains type = true

theorem Definition.Canonical.filled {d : Definition} (h : d.Canonical) : d.Filled := by
  cases d with
  | struct s => exact ⟨Struct.Canonical.bases h, Struct.Canonical.members h⟩
  | enum e => exact ⟨Enum.Canonical.bases h, Enum.Canonical.values h⟩
  | typedef t => trivial
  | action a => trivial

namespace Types

namespace Canonical

theorem empty : Types.Canonical ∅ := by
  have hget : ∀ key d, (∅ : Types).get? key ≠ some d := by
    intro key d h
    have hn : (∅ : Types).get? key = none := rfl
    rw [hn] at h
    exact absurd h (by simp)
  constructor
  · intro key d h
    exact absurd h (hget key d)
  · intro key d h
    exact absurd h (hget key d)
  · intro key a h
    exact absurd h (hget key _)

theorem filled {types : Types} (h : types.Canonical) : types.Filled :=
  fun key d hd => (h.definition key d hd).filled

/-- The types of the sections of an action are there before the action is. -/
theorem insert {types : Types} {key : String} {d : Definition} (h : types.Canonical)
    (hn : d.name = key) (hd : d.Canonical)
    (hs : ∀ a, d = .action a → ∀ s type, a.type? s = some type →
      type = a.name ++ "_" ++ s.name ∧ types.contains type = true) :
    Types.Canonical (types.insert key d) := by
  -- An entry is the new one or was there.
  have hget : ∀ other d', NameMap.get? (types.insert key d) other = some d' →
      (key = other ∧ d = d') ∨ types.get? other = some d' := by
    intro other d' h'
    rw [NameMap.get?_insert] at h'
    split at h'
    · next heq => exact .inl ⟨heq, Option.some.inj h'⟩
    · exact .inr h'
  constructor
  · intro other d' h'
    rcases hget other d' h' with ⟨rfl, rfl⟩ | h'
    · exact hn
    · exact h.name other d' h'
  · intro other d' h'
    rcases hget other d' h' with ⟨rfl, rfl⟩ | h'
    · exact hd
    · exact h.definition other d' h'
  · intro other a h' s type ht
    have hold : type = a.name ++ "_" ++ s.name ∧ types.contains type = true := by
      rcases hget other _ h' with ⟨rfl, rfl⟩ | h'
      · exact hs a rfl s type ht
      · exact h.section other a h' s type ht
    exact ⟨hold.1, NameMap.contains_insert.2 (.inr hold.2)⟩

end Canonical

end Types

end SchemaLang
