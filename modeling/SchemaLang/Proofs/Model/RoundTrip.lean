import Mathlib.Data.List.Forall2
import SchemaLang.Model.Decode
import SchemaLang.Proofs.Entries

/-!
# Type models come back from JSON

JSON writes null for a number that is not finite, and nothing else of a type model is lost in it:
what `Types.toJson` writes of a model with finite bounds is read by `Types.ofJson?` as that model.
Members are read by their names, so their order does not matter.

* `Decode.type?_toJson`, `Decode.member?_toJson`, … : each part comes back.
* `Types.ofJson?_toJson`, `TypeModel.ofJson?_toJson`: so does a model, with or without a title.
-/

namespace SchemaLang

/-! ## Finite bounds -/

/-- The bounds are numbers that JSON can write. -/
def Attributes.Finite (a : Attributes) : Prop :=
  ∀ c x, a.number.get? c = some x → x.isFinite = true

namespace TypeRef

/-- All attributes that stand within a type have a property. -/
def Carries (P : Attributes → Prop) : TypeRef → Prop
  | .array element attr => element.Carries P ∧ ∀ a, attr = some a → P a
  | .dict value attr none keyAttr =>
    value.Carries P ∧ (∀ a, attr = some a → P a) ∧ ∀ a, keyAttr = some a → P a
  | .dict value attr (some key) keyAttr =>
    value.Carries P ∧ key.Carries P ∧ (∀ a, attr = some a → P a) ∧ ∀ a, keyAttr = some a → P a
  | _ => True

end TypeRef

/-- All attributes that a definition writes have a property. -/
def Definition.Carries (P : Attributes → Prop) : Definition → Prop
  | .struct s => ∀ m ∈ s.members.getD [], m.type.Carries P ∧ ∀ a, m.attr = some a → P a
  | .typedef t => t.type.Carries P ∧ ∀ a, t.attr = some a → P a
  | _ => True

def Types.Carries (P : Attributes → Prop) (types : Types) : Prop :=
  ∀ name d, types.get? name = some d → d.Carries P

theorem TypeRef.Carries.mono {P Q : Attributes → Prop} (hPQ : ∀ a, P a → Q a) {ty : TypeRef}
    (h : ty.Carries P) : ty.Carries Q := by
  have hattr : ∀ {o : Option Attributes}, (∀ a, o = some a → P a) → ∀ a, o = some a → Q a :=
    fun ho a he => hPQ a (ho a he)
  induction ty using TypeRef.mentioned.induct with
  | case1 b => trivial
  | case2 name => trivial
  | case3 element attr ih => exact ⟨ih h.1, hattr h.2⟩
  | case4 value attr keyAttr ih => exact ⟨ih h.1, hattr h.2.1, hattr h.2.2⟩
  | case5 value attr key keyAttr ihv ihk =>
    exact ⟨ihv h.1, ihk h.2.1, hattr h.2.2.1, hattr h.2.2.2⟩

theorem Definition.Carries.mono {P Q : Attributes → Prop} (hPQ : ∀ a, P a → Q a) {d : Definition}
    (h : d.Carries P) : d.Carries Q := by
  cases d with
  | struct s => exact fun m hm => ⟨(h m hm).1.mono hPQ, fun a he => hPQ a ((h m hm).2 a he)⟩
  | enum e => trivial
  | typedef t => exact ⟨h.1.mono hPQ, fun a he => hPQ a (h.2 a he)⟩
  | action a => trivial

instance TypeRef.decidableCarries {P : Attributes → Prop} [DecidablePred P] :
    (ty : TypeRef) → Decidable (ty.Carries P)
  | .builtin _ => inferInstanceAs (Decidable True)
  | .user _ => inferInstanceAs (Decidable True)
  | .array element attr =>
    have := decidableCarries (P := P) element
    inferInstanceAs (Decidable (element.Carries P ∧ ∀ a ∈ attr, P a))
  | .dict value attr none keyAttr =>
    have := decidableCarries (P := P) value
    inferInstanceAs (Decidable (value.Carries P ∧ (∀ a ∈ attr, P a) ∧ ∀ a ∈ keyAttr, P a))
  | .dict value attr (some key) keyAttr =>
    have := decidableCarries (P := P) value
    have := decidableCarries (P := P) key
    inferInstanceAs (Decidable
      (value.Carries P ∧ key.Carries P ∧ (∀ a ∈ attr, P a) ∧ ∀ a ∈ keyAttr, P a))

instance Definition.decidableCarries {P : Attributes → Prop} [DecidablePred P] :
    (d : Definition) → Decidable (d.Carries P)
  | .struct s => inferInstanceAs
    (Decidable (∀ m ∈ s.members.getD [], m.type.Carries P ∧ ∀ a ∈ m.attr, P a))
  | .enum _ => inferInstanceAs (Decidable True)
  | .typedef t => inferInstanceAs (Decidable (t.type.Carries P ∧ ∀ a ∈ t.attr, P a))
  | .action _ => inferInstanceAs (Decidable True)

theorem Types.carries_iff {P : Attributes → Prop} {types : Types} :
    types.Carries P ↔ ∀ e ∈ types.entries, e.2.Carries P :=
  ⟨fun h e he => h e.1 e.2 (NameMap.get?_eq_some_iff.2 he),
    fun h name d hd => h (name, d) (NameMap.get?_eq_some_iff.1 hd)⟩

instance Types.decidableCarries {P : Attributes → Prop} [DecidablePred P] (types : Types) :
    Decidable (types.Carries P) :=
  decidable_of_iff _ Types.carries_iff.symm

open Encode

/-- A key type is written like any other member that need not be there. -/
theorem TypeRef.toJson_dict (value : TypeRef) (attr keyAttr : Option Attributes)
    (key : Option TypeRef) : (TypeRef.dict value attr key keyAttr).toJson
      = .object [("dict", .object (("type", value.toJson) :: (given "attr" Attributes.toJson attr
        ++ (given "keyType" TypeRef.toJson key
          ++ given "keyAttr" Attributes.toJson keyAttr))))] := by
  cases key <;> rfl

/-! ## Members of an object -/

namespace Entries

@[simp] theorem get?_cons (k name : String) (j : Json) (rest : List (String × Json)) :
    get? k ((name, j) :: rest) = if name = k then some j else get? k rest := rfl

@[simp] theorem get?_given {α : Type} (k name : String) (f : α → Json) (o : Option α)
    (rest : List (String × Json)) :
    get? k (given name f o ++ rest)
      = if name = k then (o.map f).or (get? k rest) else get? k rest := by
  cases o with
  | none => simp [given]
  | some a => by_cases h : name = k <;> simp [given, h]

@[simp] theorem get?_flag (k name : String) (b : Bool) (rest : List (String × Json)) :
    get? k (flag name b ++ rest)
      = if name = k then (if b then some (.bool true) else none).or (get? k rest)
        else get? k rest := by
  cases b with
  | false => simp [flag]
  | true => by_cases h : name = k <;> simp [flag, h]

/-- The end of an object, where nothing comes after a member. -/
@[simp] theorem get?_given_last {α : Type} (k name : String) (f : α → Json) (o : Option α) :
    get? k (given name f o) = if name = k then o.map f else none := by
  rw [← List.append_nil (given name f o), get?_given, get?, Option.or_none]

@[simp] theorem get?_flag_last (k name : String) (b : Bool) :
    get? k (flag name b) = if name = k then if b then some (.bool true) else none else none := by
  rw [← List.append_nil (flag name b), get?_flag, get?, Option.or_none]

end Entries

namespace Decode

variable {α : Type} {r : Record} {name : String}

theorem required?_eq {f : Json → Option α} {j : Json} {a : α} (hr : r name = some j)
    (hf : f j = some a) : required? r name f = some a := by
  rw [required?, hr, Option.bind_some, hf]

theorem optional?_eq {f : Json → Option α} {g : α → Json} {o : Option α}
    (hr : r name = o.map g) (hg : ∀ a, o = some a → g a ≠ .null ∧ f (g a) = some a) :
    optional? r name f = some o := by
  rw [optional?, hr]
  cases o with
  | none => rfl
  | some a =>
    obtain ⟨hn, hf⟩ := hg a rfl
    rw [Option.map_some]
    split
    · next h => simp at h
    · next h => exact absurd (Option.some.inj h) hn
    · next h =>
      rw [← Option.some.inj h, hf]
      rfl

theorem flag?_eq {b : Bool} (hr : r name = if b then some (.bool true) else none) :
    flag? r name = some b := by
  rw [flag?, hr]
  cases b <;> rfl

theorem list?_map {f : Json → Option α} {g : α → Json} {l : List α}
    (h : ∀ a ∈ l, f (g a) = some a) : list? f (.array (l.map g)) = some l := by
  rw [list?]
  induction l with
  | nil => rfl
  | cons a l ih =>
    obtain ⟨ha, hl⟩ := List.forall_mem_cons.1 h
    rw [List.map_cons, List.mapM_cons, ha, ih hl]
    rfl

theorem strings?_eq (texts : List String) : list? string? (strings texts) = some texts :=
  list?_map fun _ _ => rfl

/-! ## Attributes -/

theorem float?_ofFloat {x : Float} (h : x.isFinite = true) :
    Json.ofFloat x ≠ .null ∧ float? (Json.ofFloat x) = some x := by
  simp [Json.ofFloat, h, float?]

theorem uint64?_integer (n : UInt64) : uint64? (.integer n.toNat) = some n := by
  have hn := n.toNat_lt
  have hlt : (n.toNat : Int) < UInt64.size := by
    rw [UInt64.size]
    omega
  rw [uint64?, if_pos ⟨Int.natCast_nonneg _, hlt⟩]
  simp

theorem fieldName_inj {m m' : Measure} {c c' : Comparison} (h : c.fieldName m = c'.fieldName m') :
    m = m' ∧ c = c' := by
  revert h
  cases m <;> cases m' <;> cases c <;> cases c' <;> decide

theorem members_eq_flatMap (b : Bounds α) (m : Measure) (f : α → Json) :
    b.members m f = Comparison.all.flatMap fun c => given (c.fieldName m) f (b.get? c) := by
  rw [Bounds.members, Bounds.toList]
  induction Comparison.all with
  | nil => rfl
  | cons c cs ih =>
    rw [List.flatMap_cons, ← ih, List.filterMap_cons]
    cases b.get? c <;> rfl

theorem get?_flatMap_given_of_ne {cs : List Comparison} {m : Measure} {f : α → Json}
    {o : Comparison → Option α} {k : String} {rest : List (String × Json)}
    (h : ∀ c ∈ cs, Comparison.fieldName m c ≠ k) :
    Entries.get? k ((cs.flatMap fun c => given (c.fieldName m) f (o c)) ++ rest)
      = Entries.get? k rest := by
  induction cs with
  | nil => rfl
  | cons c cs ih =>
    obtain ⟨hc, hcs⟩ := List.forall_mem_cons.1 h
    rw [List.flatMap_cons, List.append_assoc, Entries.get?_given, if_neg hc, ih hcs]

theorem get?_flatMap_given {cs : List Comparison} {m : Measure} {f : α → Json}
    {o : Comparison → Option α} {c : Comparison} {rest : List (String × Json)} (hn : cs.Nodup)
    (hc : c ∈ cs) :
    Entries.get? (c.fieldName m) ((cs.flatMap fun c => given (c.fieldName m) f (o c)) ++ rest)
      = ((o c).map f).or (Entries.get? (c.fieldName m) rest) := by
  induction cs with
  | nil => simp at hc
  | cons d cs ih =>
    obtain ⟨hd, hn⟩ := List.nodup_cons.1 hn
    rw [List.flatMap_cons, List.append_assoc, Entries.get?_given]
    by_cases he : d = c
    · subst he
      have hne : ∀ c ∈ cs, Comparison.fieldName m c ≠ Comparison.fieldName m d := fun c hc h =>
        hd ((fieldName_inj h).2 ▸ hc)
      rw [if_pos rfl, get?_flatMap_given_of_ne hne]
    · rw [if_neg fun h => he (fieldName_inj h).2,
        ih hn ((List.mem_cons.1 hc).resolve_left (Ne.symm he))]

theorem get?_members (b : Bounds α) (m : Measure) (f : α → Json) (c : Comparison)
    (rest : List (String × Json)) :
    Entries.get? (c.fieldName m) (b.members m f ++ rest)
      = ((b.get? c).map f).or (Entries.get? (c.fieldName m) rest) := by
  rw [members_eq_flatMap]
  exact get?_flatMap_given (by decide) (by cases c <;> decide)

theorem get?_members_of_ne (b : Bounds α) (m : Measure) (f : α → Json) {k : String}
    (h : ∀ c, Comparison.fieldName m c ≠ k) (rest : List (String × Json)) :
    Entries.get? k (b.members m f ++ rest) = Entries.get? k rest := by
  rw [members_eq_flatMap]
  exact get?_flatMap_given_of_ne fun c _ => h c

theorem bounds?_eq {b : Bounds α} {m : Measure} {f : Json → Option α} {g : α → Json}
    (hr : ∀ c, r (Comparison.fieldName m c) = (b.get? c).map g)
    (hg : ∀ c a, b.get? c = some a → g a ≠ .null ∧ f (g a) = some a) :
    bounds? r m f = some b := by
  have h : ∀ c, optional? r (Comparison.fieldName m c) f = some (b.get? c) := fun c =>
    optional?_eq (hr c) (hg c)
  rw [bounds?, h, h, h, h, h]
  rfl

theorem nullable_ne_fieldName (m : Measure) (c : Comparison) :
    "nullable" ≠ Comparison.fieldName m c := by
  cases c <;> cases m <;> decide

/-- The members of attributes. -/
def attributeMembers (a : Attributes) : List (String × Json) :=
  flag "nullable" a.nullable ++ (a.number.members .number Json.ofFloat
    ++ (a.length.members .length (fun n => .integer n.toNat) ++ []))

theorem toJson_attributes (a : Attributes) : a.toJson = .object (attributeMembers a) := by
  rw [Attributes.toJson, attributeMembers, List.append_nil, List.append_assoc]

theorem get?_nullable (a : Attributes) : Entries.get? "nullable" (attributeMembers a)
    = if a.nullable then some (.bool true) else none := by
  rw [attributeMembers, Entries.get?_flag, if_pos rfl,
    get?_members_of_ne _ _ _ fun c => (nullable_ne_fieldName _ c).symm,
    get?_members_of_ne _ _ _ fun c => (nullable_ne_fieldName _ c).symm, Entries.get?,
    Option.or_none]

theorem fieldName_length_ne_number (c d : Comparison) :
    Comparison.fieldName .length c ≠ Comparison.fieldName .number d :=
  fun he => by cases (fieldName_inj he).1

theorem get?_number (a : Attributes) (c : Comparison) :
    Entries.get? (c.fieldName .number) (attributeMembers a)
      = (a.number.get? c).map Json.ofFloat := by
  rw [attributeMembers, Entries.get?_flag, if_neg (nullable_ne_fieldName _ c), get?_members,
    get?_members_of_ne _ _ _ fun d => fieldName_length_ne_number d c, Entries.get?,
    Option.or_none]

theorem get?_length (a : Attributes) (c : Comparison) :
    Entries.get? (c.fieldName .length) (attributeMembers a)
      = (a.length.get? c).map fun n => .integer n.toNat := by
  rw [attributeMembers, Entries.get?_flag, if_neg (nullable_ne_fieldName _ c),
    get?_members_of_ne _ _ _ fun d => (fieldName_length_ne_number c d).symm, get?_members,
    Entries.get?, Option.or_none]

theorem attributes?_toJson {a : Attributes} (h : a.Finite) : attributes? a.toJson = some a := by
  let r : Record := fun k => Entries.get? k (attributeMembers a)
  have hr : record? attributeFields a.toJson = some r := by
    rw [toJson_attributes, record?]
  have hflag : flag? r "nullable" = some a.nullable := flag?_eq (get?_nullable a)
  have hnumber : bounds? r .number float? = some a.number :=
    bounds?_eq (g := Json.ofFloat) (get?_number a) fun c x hx => float?_ofFloat (h c x hx)
  have hlength : bounds? r .length uint64? = some a.length :=
    bounds?_eq (g := fun n => .integer n.toNat) (get?_length a) fun c n _ =>
      ⟨by simp, uint64?_integer n⟩
  rw [attributes?, hr]
  simp only [Option.bind_eq_bind, Option.bind_some, hflag, hnumber, hlength]
  rfl

/-! ## Types -/

theorem builtin?_name (b : Builtin) : builtin? (.string b.name) = some b := by
  cases b <;> decide

theorem type?_ne_null (ty : TypeRef) : ty.toJson ≠ .null := by
  cases ty with
  | dict value attr key keyAttr => cases key <;> simp [TypeRef.toJson]
  | _ => simp [TypeRef.toJson]

theorem typeMember?_self {ty : TypeRef} {rest : List (String × Json)} {name : String}
    (h : type? ty.toJson = some ty) :
    typeMember? name ((name, ty.toJson) :: rest) = some (some ty) := by
  rw [typeMember?, if_pos rfl, h]
  · rfl
  · exact type?_ne_null ty

theorem typeMember?_of_ne {j : Json} {name k : String} {rest : List (String × Json)}
    (hk : k ≠ name) : typeMember? name ((k, j) :: rest) = typeMember? name rest := by
  cases j <;> simp [typeMember?, hk]

theorem typeMember?_given {g : α → Json} {o : Option α} {name k : String}
    {rest : List (String × Json)} (hk : k ≠ name) :
    typeMember? name (given k g o ++ rest) = typeMember? name rest := by
  cases o with
  | none => rfl
  | some a => exact typeMember?_of_ne hk

theorem attr?_eq {o : Option Attributes} (ho : ∀ a, o = some a → a.Finite)
    (hr : r name = o.map Attributes.toJson) : optional? r name attributes? = some o :=
  optional?_eq hr fun a ha => ⟨by simp [Attributes.toJson], attributes?_toJson (ho a ha)⟩

theorem arrayType?_toJson {element : TypeRef} {attr : Option Attributes}
    (he : type? element.toJson = some element) (ha : ∀ a, attr = some a → a.Finite) :
    arrayType? (.object (("type", element.toJson) :: given "attr" Attributes.toJson attr))
      = some (.array element attr) := by
  let r : Record := fun k => Entries.get? k
    (("type", element.toJson) :: given "attr" Attributes.toJson attr)
  have hattr : optional? r "attr" attributes? = some attr :=
    attr?_eq ha (by simp [r])
  have hr : record? arrayFields (.object (("type", element.toJson)
      :: given "attr" Attributes.toJson attr)) = some r := rfl
  rw [arrayType?, hr]
  simp only [Option.bind_eq_bind, Option.bind_some, typeMember?_self he, hattr]
  rfl

theorem dictType?_toJson {value : TypeRef} {attr keyAttr : Option Attributes}
    (key : Option TypeRef) (hv : type? value.toJson = some value)
    (hk : ∀ ty, key = some ty → type? ty.toJson = some ty)
    (ha : ∀ a, attr = some a → a.Finite) (hka : ∀ a, keyAttr = some a → a.Finite) :
    dictType? (.object (("type", value.toJson) :: (given "attr" Attributes.toJson attr
      ++ (given "keyType" TypeRef.toJson key ++ given "keyAttr" Attributes.toJson keyAttr))))
      = some (.dict value attr key keyAttr) := by
  generalize hms : (("type", value.toJson) :: (given "attr" Attributes.toJson attr
    ++ (given "keyType" TypeRef.toJson key ++ given "keyAttr" Attributes.toJson keyAttr))) = ms
  let r : Record := fun k => Entries.get? k ms
  have hr : record? dictFields (.object ms) = some r := rfl
  have hattr : optional? r "attr" attributes? = some attr :=
    attr?_eq ha (by
      simp [r, ← hms])
  have hkeyAttr : optional? r "keyAttr" attributes? = some keyAttr :=
    attr?_eq hka (by
      simp [r, ← hms])
  have hvalue : typeMember? "type" ms = some (some value) := by
    rw [← hms]
    exact typeMember?_self hv
  have hkey : typeMember? "keyType" ms = some key := by
    rw [← hms, typeMember?_of_ne (by decide), typeMember?_given (by decide)]
    cases key with
    | none =>
      show typeMember? "keyType" (given "keyAttr" Attributes.toJson keyAttr) = _
      rw [← List.append_nil (given _ _ _), typeMember?_given (by decide), typeMember?]
    | some ty => exact typeMember?_self (hk ty rfl)
  rw [dictType?, hr]
  simp only [Option.bind_eq_bind, Option.bind_some, hvalue, hkey, hattr, hkeyAttr]
  rfl

theorem type?_toJson {ty : TypeRef} (h : ty.Carries Attributes.Finite) :
    type? ty.toJson = some ty := by
  induction ty using TypeRef.mentioned.induct with
  | case1 b =>
    rw [TypeRef.toJson, type?, if_pos rfl, builtin?_name]
    rfl
  | case2 name =>
    rw [TypeRef.toJson, type?, if_neg (by decide), if_pos rfl]
    rfl
  | case3 element attr ih =>
    obtain ⟨he, ha⟩ := h
    rw [TypeRef.toJson, type?, if_neg (by decide), if_neg (by decide), if_pos rfl]
    exact arrayType?_toJson (ih he) ha
  | case4 value attr keyAttr ih =>
    obtain ⟨hv, ha, hk⟩ := h
    rw [TypeRef.toJson_dict, type?, if_neg (by decide), if_neg (by decide), if_neg (by decide),
      if_pos rfl]
    exact dictType?_toJson none (ih hv) (by simp) ha hk
  | case5 value attr key keyAttr ihv ihk =>
    obtain ⟨hv, hkey, ha, hk⟩ := h
    rw [TypeRef.toJson_dict, type?, if_neg (by decide), if_neg (by decide), if_neg (by decide),
      if_pos rfl]
    refine dictType?_toJson (some key) (ihv hv) ?_ ha hk
    rintro ty ⟨⟩
    exact ihk hkey

/-! ## Definitions -/

theorem doc?_eq {o : Option (List String)} (hr : r name = o.map strings) :
    optional? r name (list? string?) = some o :=
  optional?_eq hr fun texts _ => ⟨by simp [strings], strings?_eq texts⟩

theorem text?_eq {o : Option String} (hr : r name = o.map .string) :
    optional? r name string? = some o :=
  optional?_eq hr fun _ _ => ⟨by simp, rfl⟩

theorem items?_eq {f : Json → Option α} {g : α → Json} {o : Option (List α)}
    (hr : r name = o.map fun l => .array (l.map g))
    (h : ∀ l, o = some l → ∀ a ∈ l, f (g a) = some a) :
    optional? r name (list? f) = some o :=
  optional?_eq hr fun l hl => ⟨by simp, list?_map (h l hl)⟩

theorem member?_toJson {m : Member} (ht : m.type.Carries Attributes.Finite)
    (ha : ∀ a, m.attr = some a → a.Finite) : member? m.toJson = some m := by
  let r : Record := fun k => Entries.get? k (("name", .string m.name)
    :: (given "doc" strings m.doc ++ ("type", m.type.toJson)
      :: (given "attr" Attributes.toJson m.attr ++ flag "optional" m.optional)))
  have hr : record? ["name", "doc", "type", "attr", "optional"] m.toJson = some r := rfl
  have hname : required? r "name" string? = some m.name := required?_eq rfl rfl
  have hdoc : optional? r "doc" (list? string?) = some m.doc :=
    doc?_eq (by simp [r])
  have htype : required? r "type" type? = some m.type :=
    required?_eq (by simp [r]) (type?_toJson ht)
  have hattr : optional? r "attr" attributes? = some m.attr :=
    attr?_eq ha (by simp [r])
  have hopt : flag? r "optional" = some m.optional :=
    flag?_eq (by simp [r])
  rw [member?, hr]
  simp only [Option.bind_eq_bind, Option.bind_some, hname, hdoc, htype, hattr, hopt]
  rfl

/-- The members of a struct may come in any order. -/
theorem struct?_of_record {s : Struct} {json : Json}
    (hr : record? ["name", "doc", "docGroup", "union", "bases", "members"] json = some r)
    (hname : r "name" = some (.string s.name)) (hdoc : r "doc" = s.doc.map strings)
    (hgroup : r "docGroup" = s.docGroup.map .string)
    (hunion : r "union" = if s.union then some (.bool true) else none)
    (hbases : r "bases" = s.bases.map strings)
    (hmembers : r "members" = s.members.map fun ms => .array (ms.map Member.toJson))
    (h : ∀ m ∈ s.members.getD [], member? m.toJson = some m) : struct? json = some s := by
  have hms : ∀ ms, s.members = some ms → ∀ m ∈ ms, member? m.toJson = some m := by
    intro ms he m hm
    rw [he] at h
    exact h m hm
  rw [struct?, hr]
  simp only [Option.bind_eq_bind, Option.bind_some, required?_eq (f := string?) hname rfl,
    doc?_eq hdoc, text?_eq hgroup, flag?_eq hunion, doc?_eq hbases, items?_eq hmembers hms]
  rfl

theorem struct?_toJson {s : Struct} (h : ∀ m ∈ s.members.getD [], member? m.toJson = some m) :
    struct? s.toJson = some s := by
  refine struct?_of_record rfl rfl ?_ ?_ ?_ ?_ ?_ h <;>
    simp

theorem enumValue?_toJson (v : EnumValue) : enumValue? v.toJson = some v := by
  let r : Record := fun k => Entries.get? k (("name", .string v.name) :: given "doc" strings v.doc)
  have hr : record? ["name", "doc"] v.toJson = some r := rfl
  have hname : required? r "name" string? = some v.name := required?_eq rfl rfl
  have hdoc : optional? r "doc" (list? string?) = some v.doc :=
    doc?_eq (by simp [r])
  rw [enumValue?, hr]
  simp only [Option.bind_eq_bind, Option.bind_some, hname, hdoc]
  rfl

theorem enum?_toJson (e : Enum) : enum? e.toJson = some e := by
  let r : Record := fun k => Entries.get? k (("name", .string e.name)
    :: (given "doc" strings e.doc ++ given "docGroup" .string e.docGroup
      ++ given "bases" strings e.bases
      ++ given "values" (fun vs => .array (vs.map EnumValue.toJson)) e.values))
  have hr : record? ["name", "doc", "docGroup", "bases", "values"] e.toJson = some r := rfl
  have hname : required? r "name" string? = some e.name := required?_eq rfl rfl
  have hdoc : optional? r "doc" (list? string?) = some e.doc :=
    doc?_eq (by simp [r])
  have hgroup : optional? r "docGroup" string? = some e.docGroup :=
    text?_eq (by simp [r])
  have hbases : optional? r "bases" (list? string?) = some e.bases :=
    doc?_eq (by simp [r])
  have hvalues : optional? r "values" (list? enumValue?) = some e.values :=
    items?_eq (by simp [r])
      fun vs _ v _ => enumValue?_toJson v
  rw [enum?, hr]
  simp only [Option.bind_eq_bind, Option.bind_some, hname, hdoc, hgroup, hbases, hvalues]
  rfl

theorem typedef?_toJson {t : Typedef} (ht : t.type.Carries Attributes.Finite)
    (ha : ∀ a, t.attr = some a → a.Finite) : typedef? t.toJson = some t := by
  let r : Record := fun k => Entries.get? k (("name", .string t.name)
    :: (given "doc" strings t.doc ++ given "docGroup" .string t.docGroup
      ++ ("type", t.type.toJson) :: given "attr" Attributes.toJson t.attr))
  have hr : record? ["name", "doc", "docGroup", "type", "attr"] t.toJson = some r := rfl
  have hname : required? r "name" string? = some t.name := required?_eq rfl rfl
  have hdoc : optional? r "doc" (list? string?) = some t.doc :=
    doc?_eq (by simp [r])
  have hgroup : optional? r "docGroup" string? = some t.docGroup :=
    text?_eq (by simp [r])
  have htype : required? r "type" type? = some t.type :=
    required?_eq (by simp [r]) (type?_toJson ht)
  have hattr : optional? r "attr" attributes? = some t.attr :=
    attr?_eq ha (by simp [r])
  rw [typedef?, hr]
  simp only [Option.bind_eq_bind, Option.bind_some, hname, hdoc, hgroup, htype, hattr]
  rfl

theorem url?_toJson (u : Url) : url? u.toJson = some u := by
  let r : Record := fun k => Entries.get? k
    (given "method" .string u.method ++ given "path" .string u.path)
  have hr : record? ["method", "path"] u.toJson = some r := rfl
  have hmethod : optional? r "method" string? = some u.method :=
    text?_eq (by simp [r])
  have hpath : optional? r "path" string? = some u.path :=
    text?_eq (by simp [r])
  rw [url?, hr]
  simp only [Option.bind_eq_bind, Option.bind_some, hmethod, hpath]
  rfl

theorem action?_toJson (a : Action) : action? a.toJson = some a := by
  let r : Record := fun k => Entries.get? k (("name", .string a.name)
    :: (given "doc" strings a.doc ++ given "docGroup" .string a.docGroup
      ++ given "urls" (fun us => .array (us.map Url.toJson)) a.urls
      ++ Section.all.flatMap fun s => given s.name .string (a.type? s)))
  have hr : record? ("name" :: "doc" :: "docGroup" :: "urls" :: Section.all.map Section.name)
      a.toJson = some r := rfl
  have hname : required? r "name" string? = some a.name := required?_eq rfl rfl
  have hdoc : optional? r "doc" (list? string?) = some a.doc :=
    doc?_eq (by simp [r, Section.all, Section.name])
  have hgroup : optional? r "docGroup" string? = some a.docGroup :=
    text?_eq (by simp [r, Section.all, Section.name])
  have hurls : optional? r "urls" (list? url?) = some a.urls :=
    items?_eq (by simp [r, Section.all, Section.name])
      fun us _ u _ => url?_toJson u
  have hsection : ∀ s : Section, optional? r s.name string? = some (a.type? s) := by
    intro s
    refine text?_eq ?_
    cases s <;> simp [r, Section.all, Section.name]
  have hpath : optional? r "path" string? = some a.path := hsection .path
  have hquery : optional? r "query" string? = some a.query := hsection .query
  have hinput : optional? r "input" string? = some a.input := hsection .input
  have houtput : optional? r "output" string? = some a.output := hsection .output
  have herrors : optional? r "errors" string? = some a.errors := hsection .errors
  rw [action?, hr]
  simp only [Option.bind_eq_bind, Option.bind_some, hname, hdoc, hgroup, hurls, hpath, hquery,
    hinput, houtput, herrors]
  rfl

theorem definition?_toJson {d : Definition} (h : d.Carries Attributes.Finite) :
    definition? d.toJson = some d := by
  cases d with
  | struct s =>
    have hs : struct? s.toJson = some s := struct?_toJson fun m hm =>
      member?_toJson (h m hm).1 (h m hm).2
    rw [Definition.toJson, definition?, if_pos rfl, hs]
    rfl
  | enum e =>
    rw [Definition.toJson, definition?, if_neg (by decide), if_pos rfl, enum?_toJson]
    rfl
  | typedef t =>
    rw [Definition.toJson, definition?, if_neg (by decide), if_neg (by decide), if_pos rfl,
      typedef?_toJson h.1 h.2]
    rfl
  | action a =>
    rw [Definition.toJson, definition?, if_neg (by decide), if_neg (by decide),
      if_neg (by decide), if_pos rfl, action?_toJson]
    rfl

end Decode

/-! ## Models -/

namespace NameMap

theorem get?_foldl_insert {α : Type} {name : String} {entries : List (String × α)} (m : NameMap α)
    (hs : Sorted entries) :
    (entries.foldl (fun m e => m.insert e.1 e.2) m).get? name
      = (find name entries).or (m.get? name) := by
  induction entries generalizing m with
  | nil => rfl
  | cons e entries ih =>
    obtain ⟨hlt, hs⟩ := List.pairwise_cons.1 hs
    rw [List.foldl_cons, ih _ hs, get?_insert, find]
    by_cases he : e.1 = name
    · subst he
      rw [find_eq_none_of_lt hlt, if_pos rfl, if_pos rfl]
      rfl
    · rw [if_neg he, if_neg he]

/-- A map is the map of its entries. -/
theorem ofList_entries {α : Type} (m : NameMap α) : ofList m.entries = m := by
  refine ext_get? fun name => ?_
  rw [ofList, get?_foldl_insert _ m.sorted, get?_empty, Option.or_none]
  rfl

end NameMap

theorem Decode.mapM_definition? {members : List (String × Json)}
    {entries : List (String × Definition)}
    (h : List.Forall₂ (fun m e => m.1 = e.1 ∧ definition? m.2 = some e.2) members entries) :
    members.mapM (fun (m : String × Json) => (definition? m.2).map fun d => (m.1, d))
      = some entries := by
  induction h with
  | nil => rfl
  | cons hm _ ih =>
    rw [List.mapM_cons, ih, hm.2, hm.1]
    rfl

theorem Types.ofJson?_eq {members : List (String × Json)} {types : Types}
    (h : List.Forall₂ (fun m e => m.1 = e.1 ∧ Decode.definition? m.2 = some e.2) members
      types.entries) : Types.ofJson? (.object members) = some types := by
  rw [ofJson?, Decode.mapM_definition? h, Option.map_some, NameMap.ofList_entries]

/-- A model with finite bounds comes back from JSON. -/
theorem Types.ofJson?_toJson {types : Types} (h : types.Carries Attributes.Finite) :
    Types.ofJson? types.toJson = some types := by
  refine ofJson?_eq ?_
  rw [List.forall₂_map_left_iff, List.forall₂_same]
  exact fun e he => ⟨rfl, Decode.definition?_toJson (h e.1 e.2 (NameMap.get?_eq_some_iff.2 he))⟩

/-- The title comes back with it. -/
theorem TypeModel.ofJson?_toJson {m : TypeModel} (h : m.types.Carries Attributes.Finite) :
    TypeModel.ofJson? m.toJson = some m := by
  let r : Decode.Record := fun k =>
    Entries.get? k [("title", .string m.title), ("types", m.types.toJson)]
  have hr : Decode.record? ["title", "types"] m.toJson = some r := rfl
  have htitle : Decode.required? r "title" Decode.string? = some m.title :=
    Decode.required?_eq rfl rfl
  have htypes : Decode.required? r "types" Types.ofJson? = some m.types :=
    Decode.required?_eq (by simp [r]) (Types.ofJson?_toJson h)
  rw [TypeModel.ofJson?, hr]
  simp only [Option.bind_eq_bind, Option.bind_some, htitle, htypes]
  rfl

end SchemaLang
