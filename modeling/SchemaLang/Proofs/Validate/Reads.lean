import Mathlib.Data.List.Forall2
import SchemaLang.Proofs.Alias
import SchemaLang.Proofs.Validate.Builtin
import SchemaLang.Proofs.Value
import SchemaLang.Validate

/-!
# What a value is read as

`Reads types p v w` says that `v`, standing at the place `p`, is read as `w`.  It has one rule for
each kind of type and two for the places where null may be allowed, and neither paths nor failures:
a typedef is such a place for the type that it stands for.

Lists are related pointwise, so that the induction on a reading goes into them.

* `Reads.null_of_isNull`, `Reads.isNull_or_isNullText`: null is read as null and from nothing
  but null and its text.
* `reads_builtin_iff` to `reads_struct_iff`: the readings of each kind of type.
* `Reads.isCircular`: what is read has a type.
-/

namespace SchemaLang

namespace Validate

/-- Where a value is read: as a type, or where null may be allowed. -/
inductive Place
  | type (ty : TypeRef)
  | site (ty : TypeRef) (attr : Option Attributes)

def Place.ty : Place → TypeRef
  | .type ty => ty
  | .site ty _ => ty

/-- The members that an object has, each with its value. -/
def present (members : List Member) (entries : List (Key × Value)) : List (Member × Value) :=
  members.filterMap fun m => (Entries.get? (.text m.name) entries).map fun v => (m, v)

/-- Values for members, under the names of the members. -/
def named (members : List Member) (ws : List Value) : List (Key × Value) :=
  (members.zip ws).map fun p => (.text p.1.name, p.2)

/-- The pairs read from the entries of a dict, with keys that are keys. -/
def keyed (pairs : List (Value × Value)) : List (Key × Value) :=
  pairs.map fun p => (keyOf p.1, p.2)

inductive Reads (types : Types) : Place → Value → Value → Prop
  | null {ty : TypeRef} {attr : Option Attributes} {v : Value} (ha : allowsNull attr = true)
      (hv : v.isNull = true ∨ v.isNullText = true) : Reads types (.site ty attr) v .null
  | value {ty : TypeRef} {attr : Option Attributes} {v w : Value} (hv : v.isNull = false)
      (ht : ¬(allowsNull attr = true ∧ v.isNullText = true)) (h : Reads types (.type ty) v w)
      (hw : w.isNull = false) (hb : brokenBound? attr w = none) : Reads types (.site ty attr) v w
  | typedef {name : String} {t : Typedef} {v w : Value} (hd : types.get? name = some (.typedef t))
      (hc : types.isCircular (.user name) = false) (h : Reads types (.site t.type t.attr) v w) :
      Reads types (.type (.user name)) v w
  | builtin {b : Builtin} {v w : Value} (h : b.convert? v = some w) :
      Reads types (.type (.builtin b)) v w
  | array {element : TypeRef} {attr : Option Attributes} {v : Value} {items ws : List Value}
      (hv : v.items? = some items) (hl : items.length = ws.length)
      (h : ∀ {a w}, (a, w) ∈ items.zip ws → Reads types (.site element attr) a w) :
      Reads types (.type (.array element attr)) v (.array ws)
  | dict {value : TypeRef} {attr : Option Attributes} {key : Option TypeRef}
      {keyAttr : Option Attributes} {v : Value} {entries : List (Key × Value)}
      {pairs : List (Value × Value)} (hv : v.entries? = some entries)
      (hl : entries.length = pairs.length)
      (hk : ∀ {e p}, (e, p) ∈ entries.zip pairs →
        Reads types (.site (key.getD (.builtin .string)) keyAttr) (.ofKey e.1) p.1)
      (h : ∀ {e p}, (e, p) ∈ entries.zip pairs → Reads types (.site value attr) e.2 p.2) :
      Reads types (.type (.dict value attr key keyAttr)) v (.object (Entries.ofList (keyed pairs)))
  | enum {name : String} {e : Enum} {s : String} (hd : types.get? name = some (.enum e))
      (hs : ∃ value ∈ types.values e, value.name = s) :
      Reads types (.type (.user name)) (.string s) (.string s)
  | struct {name : String} {s : Struct} {v : Value} {entries : List (Key × Value)}
      {ws : List Value} (hd : types.get? name = some (.struct s)) (hv : v.entries? = some entries)
      (hu : s.union = true → entries.length = 1)
      (hk : ∀ k ∈ Entries.keys entries, ∃ m ∈ types.members s, k = .text m.name)
      (ho : ∀ m ∈ types.members s, .text m.name ∉ Entries.keys entries →
        m.optional = true ∨ s.union = true)
      (hl : (present (types.members s) entries).length = ws.length)
      (h : ∀ {p w}, (p, w) ∈ (present (types.members s) entries).zip ws →
        Reads types (.site p.1.type p.1.attr) p.2 w) :
      Reads types (.type (.user name)) v
        (.object (Entries.ofList (named ((present (types.members s) entries).map Prod.fst) ws)))

/-! ## Lists side by side -/

/-- Lists of one length as the two sides of one list. -/
theorem exists_unzip {α β : Type} {as : List α} {bs : List β} (hl : as.length = bs.length) :
    ∃ ps : List (α × β), as = ps.map Prod.fst ∧ bs = ps.map Prod.snd :=
  ⟨as.zip bs, (List.map_fst_zip (Nat.le_of_eq hl)).symm,
    (List.map_snd_zip (Nat.le_of_eq hl.symm)).symm⟩

theorem mem_zip_of_mem {α β : Type} {ps : List (α × β)} {p : α × β} (h : p ∈ ps) :
    (p.1, p.2) ∈ (ps.map Prod.fst).zip (ps.map Prod.snd) := by
  rw [List.zip_map']
  exact List.mem_map_of_mem (f := fun p => (p.1, p.2)) h

theorem exists_mem_zip {α β : Type} {l₁ : List α} {l₂ : List β} (hl : l₁.length = l₂.length)
    {b : β} (hb : b ∈ l₂) : ∃ a, (a, b) ∈ l₁.zip l₂ := by
  obtain ⟨ps, rfl, rfl⟩ := exists_unzip hl
  obtain ⟨p, hp, rfl⟩ := List.mem_map.1 hb
  exact ⟨p.1, mem_zip_of_mem hp⟩

variable {types : Types}

/-! ## Null -/

theorem Reads.null_of_isNull {p : Place} {v w : Value} (h : Reads types p v w)
    (hn : v.isNull = true) : w = .null := by
  rw [Value.isNull_iff] at hn
  induction h with
  | null _ _ => rfl
  | value hv _ _ _ _ => simp [hn, Value.isNull] at hv
  | typedef _ _ _ ih => exact ih hn
  | builtin h =>
    subst hn
    exact Builtin.convert?_null h
  | array hv _ _ => simp [hn, Value.items?] at hv
  | dict hv _ _ _ => simp [hn, Value.entries?] at hv
  | enum _ _ => simp at hn
  | struct _ hv _ _ _ _ _ => simp [hn, Value.entries?] at hv

theorem Reads.isNull_or_isNullText {p : Place} {v : Value} (h : Reads types p v .null) :
    v.isNull = true ∨ v.isNullText = true := by
  generalize hw : Value.null = w at h
  induction h with
  | null _ hv => exact hv
  | value _ _ _ hn _ => simp [← hw, Value.isNull] at hn
  | typedef _ _ _ ih => exact ih hw
  | builtin h =>
    subst hw
    exact .inl (Value.isNull_iff.2 (Builtin.eq_null_of_convert? h))
  | array _ _ _ => simp at hw
  | dict _ _ _ _ => simp at hw
  | enum _ _ => simp at hw
  | struct _ _ _ _ _ _ _ => simp at hw

/-! ## The readings of each kind of type -/

/-- What entries are read as under the members of a struct. -/
def ReadsMembers (types : Types) (s : Struct) (entries : List (Key × Value)) (w : Value) : Prop :=
  (s.union = true → entries.length = 1)
    ∧ (∀ k ∈ Entries.keys entries, ∃ m ∈ types.members s, k = .text m.name)
    ∧ (∀ m ∈ types.members s, .text m.name ∉ Entries.keys entries →
        m.optional = true ∨ s.union = true)
    ∧ ∃ ws, List.Forall₂ (fun p w => Reads types (.site p.1.type p.1.attr) p.2 w)
          (present (types.members s) entries) ws
        ∧ w = .object (Entries.ofList (named ((present (types.members s) entries).map Prod.fst) ws))

theorem reads_builtin_iff {b : Builtin} {v w : Value} :
    Reads types (.type (.builtin b)) v w ↔ b.convert? v = some w := by
  constructor
  · intro h
    cases h with
    | builtin h => exact h
  · exact .builtin

theorem reads_array_iff {element : TypeRef} {attr : Option Attributes} {v w : Value} :
    Reads types (.type (.array element attr)) v w ↔ ∃ items, v.items? = some items
      ∧ ∃ ws, List.Forall₂ (Reads types (.site element attr)) items ws ∧ w = .array ws := by
  simp only [List.forall₂_iff_zip]
  constructor
  · intro h
    cases h with
    | array hv hl h => exact ⟨_, hv, _, ⟨hl, h⟩, rfl⟩
  · rintro ⟨items, hv, ws, ⟨hl, h⟩, rfl⟩
    exact .array hv hl h

theorem reads_dict_iff {ty : TypeRef} {attr keyAttr : Option Attributes} {key : Option TypeRef}
    {v w : Value} :
    Reads types (.type (.dict ty attr key keyAttr)) v w ↔ ∃ entries, v.entries? = some entries
      ∧ ∃ pairs, List.Forall₂ (fun e p =>
          Reads types (.site (key.getD (.builtin .string)) keyAttr) (.ofKey e.1) p.1
            ∧ Reads types (.site ty attr) e.2 p.2) entries pairs
        ∧ w = .object (Entries.ofList (keyed pairs)) := by
  simp only [List.forall₂_iff_zip]
  constructor
  · intro h
    cases h with
    | dict hv hl hk h => exact ⟨_, hv, _, ⟨hl, fun hm => ⟨hk hm, h hm⟩⟩, rfl⟩
  · rintro ⟨entries, hv, pairs, ⟨hl, h⟩, rfl⟩
    exact .dict hv hl (fun hm => (h hm).1) fun hm => (h hm).2

theorem reads_typedef_iff {name : String} {t : Typedef} {v w : Value}
    (hd : types.get? name = some (.typedef t)) :
    Reads types (.type (.user name)) v w
      ↔ types.isCircular (.user name) = false ∧ Reads types (.site t.type t.attr) v w := by
  constructor
  · intro h
    cases h with
    | typedef hd' hc h =>
      rw [hd] at hd'
      cases hd'
      exact ⟨hc, h⟩
    | enum hd' _ => simp [hd] at hd'
    | struct hd' _ _ _ _ _ _ => simp [hd] at hd'
  · rintro ⟨hc, h⟩
    exact .typedef hd hc h

theorem reads_enum_iff {name : String} {e : Enum} {v w : Value}
    (hd : types.get? name = some (.enum e)) :
    Reads types (.type (.user name)) v w
      ↔ ∃ s, v = .string s ∧ w = .string s ∧ ∃ value ∈ types.values e, value.name = s := by
  constructor
  · intro h
    cases h with
    | typedef hd' _ _ => simp [hd] at hd'
    | enum hd' hs =>
      rw [hd] at hd'
      cases hd'
      exact ⟨_, rfl, rfl, hs⟩
    | struct hd' _ _ _ _ _ _ => simp [hd] at hd'
  · rintro ⟨s, rfl, rfl, hs⟩
    exact .enum hd hs

theorem reads_struct_iff {name : String} {s : Struct} {v w : Value}
    (hd : types.get? name = some (.struct s)) :
    Reads types (.type (.user name)) v w
      ↔ ∃ entries, v.entries? = some entries ∧ ReadsMembers types s entries w := by
  simp only [ReadsMembers, List.forall₂_iff_zip]
  constructor
  · intro h
    cases h with
    | typedef hd' _ _ => simp [hd] at hd'
    | enum hd' _ => simp [hd] at hd'
    | struct hd' hv hu hk ho hl h =>
      rw [hd] at hd'
      cases hd'
      exact ⟨_, hv, hu, hk, ho, _, ⟨hl, h⟩, rfl⟩
  · rintro ⟨entries, hv, hu, hk, ho, ws, ⟨hl, h⟩, rfl⟩
    exact .struct hd hv hu hk ho hl h

/-- Names that stand for no type have no readings. -/
theorem not_reads_user {name : String} {v w : Value}
    (hd : ∀ d, types.get? name = some d → ∃ a, d = .action a) :
    ¬Reads types (.type (.user name)) v w := by
  intro h
  cases h with
  | typedef hd' _ _ => simpa using hd _ hd'
  | enum hd' _ => simpa using hd _ hd'
  | struct hd' _ _ _ _ _ _ => simpa using hd _ hd'

/-! ## Types -/

theorem isTypedef_of_struct {name : String} {s : Struct}
    (hd : types.get? name = some (.struct s)) : types.isTypedef (.user name) = false := by
  simp [Types.isTypedef, hd]

theorem isTypedef_of_enum {name : String} {e : Enum}
    (hd : types.get? name = some (.enum e)) : types.isTypedef (.user name) = false := by
  simp [Types.isTypedef, hd]

theorem Reads.isCircular {ty : TypeRef} {v w : Value} (h : Reads types (.type ty) v w) :
    types.isCircular ty = false := by
  cases h with
  | typedef _ hc _ => exact hc
  | builtin _ => exact Types.isCircular_of_not_isTypedef rfl
  | array _ _ _ => exact Types.isCircular_of_not_isTypedef rfl
  | dict _ _ _ _ => exact Types.isCircular_of_not_isTypedef rfl
  | enum hd _ => exact Types.isCircular_of_not_isTypedef (isTypedef_of_enum hd)
  | struct hd _ _ _ _ _ _ => exact Types.isCircular_of_not_isTypedef (isTypedef_of_struct hd)

end Validate

end SchemaLang
