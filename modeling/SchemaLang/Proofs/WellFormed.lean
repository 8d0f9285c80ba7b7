import SchemaLang.Lint.Site
import SchemaLang.Proofs.Alias
import SchemaLang.Proofs.Inheritance

/-!
# Well-formed type models

`Types.WellFormed` says what makes sense of a type model, definition by definition and without any
report of what does not: names agree, bases are of the kind of what inherits from them and are met
once, items have names of their own, aliases end, what is used as a type is one, the keys of dicts
are texts, and bounds are about something that the values have.

A site stands within another as it is written, so a typedef that is an array of itself is no harder
to judge than any other; what a name stands for is told by `Types.Leads`.
-/

namespace SchemaLang

namespace Types

/-- The definition that a name stands for once aliases are followed, which is no typedef. -/
def Denotes (types : Types) (name : String) (d : Definition) : Prop :=
  ∃ aliases target, Leads types (.user name) aliases (.user target) ∧ types.get? target = some d

/-- A name that can be used as a type: actions cannot. -/
def IsType (types : Types) (name : String) : Prop :=
  ∃ d, types.get? name = some d ∧ ∀ a, d ≠ .action a

end Types

/-! ## Sites -/

/-- The measure that the values of a type have which is no alias. -/
inductive TypeRef.Admits : TypeRef → Measure → Prop
  | int : Admits (.builtin .int) .number
  | float : Admits (.builtin .float) .number
  | string : Admits (.builtin .string) .length
  | array {element : TypeRef} {attr : Option Attributes} : Admits (.array element attr) .length
  | dict {value : TypeRef} {attr keyAttr : Option Attributes} {key : Option TypeRef} :
      Admits (.dict value attr key keyAttr) .length

/-- The types of keys: all texts, or those of an enum. -/
inductive TypeRef.IsKey (types : Types) : TypeRef → Prop
  | string : IsKey types (.builtin .string)
  | enum {name : String} {e : Enum} (hd : types.get? name = some (.enum e)) :
      IsKey types (.user name)

namespace Site

/-- The sites that stand within a site, itself among them, as far as aliases are not followed. -/
inductive Part : Site → Site → Prop
  | whole {s : Site} : Part s s
  | element {element : TypeRef} {elementAttr attr : Option Attributes} {p : Site}
      (h : Part ⟨element, elementAttr⟩ p) : Part ⟨.array element elementAttr, attr⟩ p
  | value {value : TypeRef} {valueAttr keyAttr attr : Option Attributes} {key : Option TypeRef}
      {p : Site} (h : Part ⟨value, valueAttr⟩ p) :
      Part ⟨.dict value valueAttr key keyAttr, attr⟩ p
  | key {value key : TypeRef} {valueAttr keyAttr attr : Option Attributes} {p : Site}
      (h : Part ⟨key, keyAttr⟩ p) : Part ⟨.dict value valueAttr (some key) keyAttr, attr⟩ p

/-- A site on its own, whatever stands within it. -/
structure Sensible (types : Types) (s : Site) : Prop where
  isType : ∀ {name : String}, s.type = .user name → types.IsType name
  isKey : ∀ {value key : TypeRef} {attr keyAttr : Option Attributes},
    s.type = .dict value attr (some key) keyAttr →
      ∃ aliases target, types.Leads key aliases target ∧ target.IsKey types
  admits : ∀ {a : Attributes} {b : Bound}, s.attr = some a → b ∈ a.bounds →
    ∃ aliases target, types.Leads s.type aliases target ∧ target.Admits b.measure

/-- All sites within a site are sensible. -/
def WellFormed (types : Types) (s : Site) : Prop := ∀ p, s.Part p → p.Sensible types

end Site

/-! ## Inheritance -/

namespace Heritage

variable {δ α : Type}

/-- What there is to be met when tasks are done one after the other, without any record of what has
been met: the names of the bases entered and the items listed, both in order.  A name that stands
for no definition of the right kind is passed over. -/
inductive Unfolds (h : Heritage δ α) (types : Types) : List (Task δ) → List String → List α → Prop
  | nil : Unfolds h types [] [] []
  | list {d : δ} {rest : List (Task δ)} {bases : List String} {items : List α}
      (hr : Unfolds h types rest bases items) :
      Unfolds h types (.list d :: rest) bases (h.items d ++ items)
  | pass {base : String} {rest : List (Task δ)} {bases : List String} {items : List α}
      (hb : h.base? types base = none) (hr : Unfolds h types rest bases items) :
      Unfolds h types (.enter base :: rest) bases items
  | enter {base : String} {b : δ} {rest : List (Task δ)} {bases : List String} {items : List α}
      (hb : h.base? types base = some b) (hr : Unfolds h types (h.tasks b ++ rest) bases items) :
      Unfolds h types (.enter base :: rest) (h.name b :: bases) items

/-- A definition unfolds, no base is met twice, and no two items, inherited or own, have one
name. -/
def Regular (h : Heritage δ α) (types : Types) (name : α → String) (d : δ) : Prop :=
  ∃ bases items, h.Unfolds types (h.tasks d) bases items ∧ bases.Nodup ∧ (items.map name).Nodup

end Heritage

/-! ## Type models -/

/-- The members that are given together in two sections have different names. -/
def Action.Apart (types : Types) (a : Action) : Prop :=
  ∀ x ∈ Section.inputs, ∀ y ∈ Section.inputs, x ≠ y →
    ∀ t s m, a.type? x = some t → types.Denotes t (.struct s) →
      Struct.heritage.HasItem types s m →
    ∀ t' s' m', a.type? y = some t' → types.Denotes t' (.struct s') →
      Struct.heritage.HasItem types s' m' → m.name ≠ m'.name

structure Types.WellFormed (types : Types) : Prop where
  name : ∀ {key : String} {d : Definition}, types.get? key = some d → d.name = key
  structBase : ∀ {key base : String} {s : Struct}, types.get? key = some (.struct s) →
    base ∈ s.bases.getD [] → ∃ b, types.Denotes base (.struct b) ∧ b.union = s.union
  enumBase : ∀ {key base : String} {e : Enum}, types.get? key = some (.enum e) →
    base ∈ e.bases.getD [] → ∃ b, types.Denotes base (.enum b)
  struct : ∀ {key : String} {s : Struct}, types.get? key = some (.struct s) →
    Struct.heritage.Regular types Member.name s
  enum : ∀ {key : String} {e : Enum}, types.get? key = some (.enum e) →
    Enum.heritage.Regular types EnumValue.name e
  apart : ∀ {key : String} {a : Action}, types.get? key = some (.action a) → a.Apart types
  aliasEnds : ∀ {key : String} {t : Typedef}, types.get? key = some (.typedef t) →
    ∃ aliases target, types.Leads t.type aliases target
  sectionType : ∀ {key type : String} {a : Action} {x : Section},
    types.get? key = some (.action a) → a.type? x = some type → types.IsType type
  memberSite : ∀ {key : String} {s : Struct} {m : Member}, types.get? key = some (.struct s) →
    m ∈ s.members.getD [] → Site.WellFormed types ⟨m.type, m.attr⟩
  typedefSite : ∀ {key : String} {t : Typedef}, types.get? key = some (.typedef t) →
    Site.WellFormed types ⟨t.type, t.attr⟩

end SchemaLang
