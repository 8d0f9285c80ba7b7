import Mathlib.Logic.Relation
import SchemaLang.Proofs.Inheritance

/-!
# Types that a type is made of

`Types.Reaches` follows elements, values and keys, the targets of typedefs and the members of
structs, own and inherited ones, from type to type.
-/

namespace SchemaLang

namespace Types

inductive Uses (types : Types) : TypeRef → TypeRef → Prop
  | element {element : TypeRef} {attr : Option Attributes} :
      Uses types (.array element attr) element
  | value {value : TypeRef} {attr keyAttr : Option Attributes} {key : Option TypeRef} :
      Uses types (.dict value attr key keyAttr) value
  | key {value key : TypeRef} {attr keyAttr : Option Attributes} :
      Uses types (.dict value attr (some key) keyAttr) key
  | typedef {name : String} {t : Typedef} (hd : types.get? name = some (.typedef t)) :
      Uses types (.user name) t.type
  | member {name : String} {s : Struct} {m : Member} (hd : types.get? name = some (.struct s))
      (hm : Struct.heritage.HasItem types s m) : Uses types (.user name) m.type

def Reaches (types : Types) : TypeRef → TypeRef → Prop := Relation.ReflTransGen types.Uses

theorem Uses.reaches {types : Types} {a b c : TypeRef} (h : types.Uses a b)
    (hr : types.Reaches b c) : types.Reaches a c := Relation.ReflTransGen.head h hr

/-- What holds of a type and of all that a type uses holds of all that is reached. -/
theorem Reaches.closed {types : Types} {P : TypeRef → Prop} {a b : TypeRef}
    (hr : types.Reaches a b) (ha : P a) (h : ∀ a b, P a → types.Uses a b → P b) : P b := by
  induction hr with
  | refl => exact ha
  | tail _ hu ih => exact h _ _ ih hu

theorem Uses.eq_of_typedef {types : Types} {name : String} {t : Typedef} {b : TypeRef}
    (h : types.Uses (.user name) b) (hd : types.get? name = some (.typedef t)) : b = t.type := by
  cases h with
  | typedef hd' =>
    rw [hd] at hd'
    cases hd'
    rfl
  | member hd' _ =>
    rw [hd] at hd'
    simp at hd'

theorem Uses.exists_member {types : Types} {name : String} {s : Struct} {b : TypeRef}
    (h : types.Uses (.user name) b) (hd : types.get? name = some (.struct s)) :
    ∃ m, Struct.heritage.HasItem types s m ∧ b = m.type := by
  cases h with
  | typedef hd' =>
    rw [hd] at hd'
    simp at hd'
  | member hd' hm =>
    rw [hd] at hd'
    cases hd'
    exact ⟨_, hm, rfl⟩

theorem Uses.false_of_enum {types : Types} {name : String} {e : Enum} {b : TypeRef}
    (h : types.Uses (.user name) b) (hd : types.get? name = some (.enum e)) : False := by
  cases h with
  | typedef hd' =>
    rw [hd] at hd'
    simp at hd'
  | member hd' _ =>
    rw [hd] at hd'
    simp at hd'

end Types

end SchemaLang
