import SchemaLang.Bootstrap
import SchemaLang.Compile
import SchemaLang.Proofs.Model.RoundTrip
import SchemaLang.Proofs.Number.Naturals
import SchemaLang.Proofs.Text.Pieces
import SchemaLang.Proofs.Validate.Attributes
import SchemaLang.Proofs.Validate.Recasts

/-!
# The type model of type models takes what is written

What `Types.toJson` writes has the shape that `Bootstrap.types` describes, if JSON and integers of
64 bits can carry the bounds in it and no list is empty where the shape asks for items.  Only a
struct comes back in another order than it is written in.

* `Bootstrap.compile_source`: the shape is the one that its schema defines.
* `Bootstrap.recasts_attributes`, `Bootstrap.recasts_type`: attributes and types.
* `Bootstrap.exists_recasts_definition`: definitions of each kind.
* `Bootstrap.exists_reads_types`: models, which come back from what is read.
-/

namespace SchemaLang

/-- What JSON and integers of 64 bits can carry. -/
structure Attributes.Portable (a : Attributes) : Prop where
  finite : a.Finite
  counts : ∀ c n, a.length.get? c = some n → n.toNat < 2 ^ 63

theorem Attributes.portable_iff {a : Attributes} : a.Portable ↔
    Comparison.all.all (fun c => (a.number.get? c).all Float.isFinite
      && (a.length.get? c).all fun n => n.toNat < 2 ^ 63) = true := by
  have hall : ∀ c, c ∈ Comparison.all := fun c => by cases c <;> decide
  simp only [List.all_eq_true, Bool.and_eq_true, Option.all_eq_true, decide_eq_true_eq]
  exact ⟨fun h c _ => ⟨h.finite c, h.counts c⟩,
    fun h => ⟨fun c => (h c (hall c)).1, fun c => (h c (hall c)).2⟩⟩

instance (a : Attributes) : Decidable a.Portable := decidable_of_iff _ Attributes.portable_iff.symm

/-- A definition has no empty list of bases, members or values. -/
def Definition.Filled : Definition → Prop
  | .struct s => s.bases ≠ some [] ∧ s.members ≠ some []
  | .enum e => e.bases ≠ some [] ∧ e.values ≠ some []
  | _ => True

def Types.Filled (types : Types) : Prop := ∀ name d, types.get? name = some d → d.Filled

namespace Bootstrap

/-! ## The schema -/

theorem lint_types : types.lint = [] := by decide +kernel

theorem map_toList_cons {line : List Char} {lines : List String} {chars : List (List Char)}
    (h : lines.map String.toList = chars) :
    (String.ofList line :: lines).map String.toList = line :: chars := by
  rw [List.map_cons, String.toList_ofList, h]

theorem map_map_toList_cons {lines : List String} {chars : List (List Char)}
    {blocks : List (List String)} {rest : List (List (List Char))}
    (h : lines.map String.toList = chars) (hr : blocks.map (List.map String.toList) = rest) :
    (lines :: blocks).map (List.map String.toList) = chars :: rest := by
  rw [List.map_cons, h, hr]

theorem exists_read_blocks : ∃ blocks : List (List (List Char)),
    sourceBlocks.map (List.map String.toList) = blocks
      ∧ '\n' ∉ blocks.flatten.flatten ∧ '\r' ∉ blocks.flatten.flatten
      ∧ ((Compilation.ofTypes ∅).readLines "" blocks.flatten).types = types
      ∧ ((Compilation.ofTypes ∅).readLines "" blocks.flatten).log = [] := by
  apply Exists.intro
  constructor
  · -- The characters are found by unification: to decode the literals is much slower.
    unfold sourceBlocks
    repeat' first | apply map_toList_cons | apply map_map_toList_cons | exact List.map_nil
  · decide +kernel

/-- The table is what its schema is compiled to. -/
theorem compile_source : compile source = .ok types := by
  obtain ⟨blocks, hblocks, hn, hr, htypes, hlog⟩ := exists_read_blocks
  have hsource : source.toList = blocks.flatten.flatMap (· ++ ['\n']) := by
    rw [source, String.toList_join, List.flatMap_map, ← hblocks, ← List.map_flatten,
      List.flatMap_map]
    simp only [String.toList_append]
    rfl
  have hread : (Compilation.ofTypes ∅).read "" source
      = (Compilation.ofTypes ∅).readLines "" blocks.flatten := by
    rw [Compilation.read, hsource, Text.lines_flatMap hn hr]
  simp [compile, hread, Compilation.finish, htypes, hlog, lint_types, Compilation.errors,
    Compilation.diagnostics, Diagnostic.report]

open Validate Encode

/-- The struct that a definition is. -/
def structOf (d : Definition) : Struct := d.struct?.getD { name := d.name }

/-- The members that a definition has of its own. -/
def own (d : Definition) : List Member := (structOf d).members.getD []

/-! ## Members -/

theorem fits_some {m : Member} {j : Json} (h : Recasts types (.site m.type m.attr) j j) :
    Fits types m (some j) where
  optional := by simp
  recasts := by
    rintro _ ⟨⟩
    exact h

theorem fits_map {α : Type} {m : Member} {f : α → Json} {o : Option α} (ho : m.optional = true)
    (h : ∀ a, o = some a → Recasts types (.site m.type m.attr) (f a) (f a)) :
    Fits types m (o.map f) where
  optional _ := ho
  recasts j hj := by
    obtain ⟨a, ha, rfl⟩ := Option.map_eq_some_iff.1 hj
    exact h a ha

/-- A flag is written when it is set. -/
theorem fits_flag {m : Member} {b : Bool} (ho : m.optional = true)
    (h : Recasts types (.site m.type m.attr) (.bool true) (.bool true)) :
    Fits types m (if b then some (.bool true) else none) where
  optional _ := ho
  recasts j hj := by
    split at hj
    · rw [← Option.some.inj hj]
      exact h
    · simp at hj

theorem recasts_strings (texts : List String) :
    Recasts types (.site (list (.builtin .string)) none) (strings texts) (strings texts) :=
  (recasts_map fun s _ => recasts_string s).plain (by simp) (by simp)

/-- Members of one kind, none of which need be there. -/
theorem forall₂_fits {members : List Member} {values : List (Option Json)} (ty : TypeRef)
    (attr : Option Attributes) (hl : members.length = values.length)
    (hm : ∀ m ∈ members, m.optional = true ∧ m.type = ty ∧ m.attr = attr)
    (hv : ∀ j, some j ∈ values → Recasts types (.site ty attr) j j) :
    List.Forall₂ (Fits types) members values := by
  refine List.forall₂_iff_zip.2 ⟨hl, fun {m v} hp => ?_⟩
  obtain ⟨hmm, hmv⟩ := List.of_mem_zip hp
  obtain ⟨ho, rfl, rfl⟩ := hm m hmm
  exact ⟨fun _ => ho, fun j hj => hv j (hj ▸ hmv)⟩

@[simp] theorem given_map {α : Type} (name : String) (f : α → Json) (o : Option α) :
    given name id (o.map f) = given name f o := by
  cases o <;> rfl

@[simp] theorem given_some {α : Type} (name : String) (f : α → Json) (a : α) :
    given name f (some a) = [(name, f a)] := rfl

@[simp] theorem given_flag (name : String) (b : Bool) :
    given name id (if b then some (.bool true) else none) = flag name b := by
  cases b <;> rfl

/-! ## Attributes -/

theorem int_of_toJson {w : Value} {n : Int} (h : w.toJson = .integer n) :
    ∃ i : Int64, w = .int i ∧ i.toInt = n := by
  cases w <;> simp [Value.toJson, Json.ofFloat] at h
  case int i => exact ⟨i, rfl, h⟩
  case float x => split at h <;> simp at h

theorem meets_nonNegative {n : Nat} {w : Value} (h : w.toJson = .integer n) :
    nonNegative.Meets w := by
  obtain ⟨i, rfl, hi⟩ := int_of_toJson h
  refine ⟨fun {c x} hc => ?_, fun {c m} hc => by cases c <;> simp [nonNegative, Bounds.get?] at hc⟩
  cases c <;> simp [nonNegative, Bounds.get?] at hc
  subst hc
  refine ⟨Float.ofInt i.toInt, rfl, ?_⟩
  rw [hi]
  exact decide_eq_true (Number.zero_le_ofNat _)

theorem recasts_attributes {a : Attributes} (h : a.Portable) :
    Recasts types (.type (.user "Attributes")) a.toJson a.toJson := by
  let values : List (Option Json) :=
    (if a.nullable then some (.bool true) else none)
      :: (Comparison.all.map (fun c => (a.number.get? c).map Json.ofFloat)
        ++ Comparison.all.map (fun c => (a.length.get? c).map fun n => .integer n.toNat))
  have hj : a.toJson = .object (fieldsOf (own attributesType) values) := by
    rw [Attributes.toJson, Decode.members_eq_flatMap, Decode.members_eq_flatMap]
    simp [fieldsOf, own, structOf, Definition.struct?, attributesType, values, Comparison.all,
      optional, bounded, Comparison.fieldName]
  rw [hj]
  refine recasts_record (s := structOf attributesType) rfl rfl (by decide) rfl (.refl _) ?_
  refine .cons (fits_flag rfl (recasts_bool true)) ?_
  let numbers := ((own attributesType).drop 1).take 5
  let lengths := (own attributesType).drop 6
  show List.Forall₂ (Fits types) (numbers ++ lengths) _
  refine List.rel_append (forall₂_fits (.builtin .float) none rfl ?_ fun j hjv => ?_)
    (forall₂_fits (.builtin .int) (some nonNegative) rfl ?_ fun j hjv => ?_)
  · simp [numbers, own, structOf, Definition.struct?, attributesType, optional]
  · obtain ⟨c, -, hc⟩ := List.mem_map.1 hjv
    obtain ⟨x, hx, rfl⟩ := Option.map_eq_some_iff.1 hc
    have hf := h.finite c x hx
    rw [Json.ofFloat, if_pos hf]
    exact recasts_float hf
  · simp [lengths, own, structOf, Definition.struct?, attributesType, optional, bounded]
  · obtain ⟨c, -, hc⟩ := List.mem_map.1 hjv
    obtain ⟨n, hn, rfl⟩ := Option.map_eq_some_iff.1 hc
    have hlt := h.counts c n hn
    exact (recasts_count hlt).bounded (by simp) (by simp) rfl fun w hw =>
      brokenBound?_eq_none_iff.2 fun a ha => Option.some.inj ha ▸ meets_nonNegative hw

/-- The attributes of a member. -/
theorem fits_attr {m : Member} {o : Option Attributes} (ho : m.optional = true)
    (ht : m.type = .user "Attributes") (ha : m.attr = none)
    (h : ∀ a, o = some a → a.Portable) : Fits types m (o.map Attributes.toJson) := by
  refine fits_map ho fun a hoa => ?_
  rw [ht, ha]
  exact (recasts_attributes (h a hoa)).plain (by simp [Attributes.toJson])
    (by simp [Attributes.toJson])

/-! ## Types -/

theorem recasts_builtin (b : Builtin) :
    Recasts types (.type (.user "BuiltinType")) (.string b.name) (.string b.name) := by
  let e : Enum := builtinType.enum?.getD { name := "" }
  have hd : types.get? "BuiltinType" = some (.enum e) := rfl
  have hv : types.values e = e.values.getD [] := rfl
  refine ⟨.string b.name, .enum hd ?_, rfl⟩
  rw [hv]
  cases b <;> simp [e, builtinType, Definition.enum?, value, Builtin.name]

/-- The JSON of a type is an object with the one member of its kind. -/
theorem recasts_type_of {m : Member} {j : Json} (hm : m ∈ own typeUnion)
    (h : Recasts types (.site m.type m.attr) j j) :
    Recasts types (.type (.user "Type")) (.object [(m.name, j)]) (.object [(m.name, j)]) :=
  recasts_union (s := structOf typeUnion) rfl rfl rfl (by decide) hm h

theorem fits_type {m : Member} {ty : TypeRef} (ht : m.type = .user "Type") (ha : m.attr = none)
    (h : Recasts types (.type (.user "Type")) ty.toJson ty.toJson) :
    Fits types m (some ty.toJson) := by
  apply fits_some
  rw [ht, ha]
  exact h.plain (Decode.type?_ne_null ty) (Decode.type?_ne_null ty)

theorem recasts_array {element : TypeRef} {attr : Option Attributes}
    (he : Recasts types (.type (.user "Type")) element.toJson element.toJson)
    (ha : ∀ a, attr = some a → a.Portable) :
    Recasts types (.type (.user "Type")) (TypeRef.array element attr).toJson
      (TypeRef.array element attr).toJson := by
  have hj : (TypeRef.array element attr).toJson = .object [("array",
      .object (fieldsOf (own arrayType) [some element.toJson, attr.map Attributes.toJson]))] := by
    simp [TypeRef.toJson, fieldsOf, own, structOf, Definition.struct?, arrayType, required,
      optional]
  have hr : Recasts types (.type (.user "Array")) _ _ :=
    recasts_record (s := structOf arrayType) rfl rfl (by decide) rfl (.refl _)
      (.cons (fits_type rfl rfl he) (.cons (fits_attr rfl rfl rfl ha) .nil))
  rw [hj]
  exact recasts_type_of (m := (own typeUnion)[1]) (by simp [own]) (hr.plain (by simp) (by simp))

theorem recasts_dict {value : TypeRef} {attr keyAttr : Option Attributes} {key : Option TypeRef}
    (hv : Recasts types (.type (.user "Type")) value.toJson value.toJson)
    (hk : ∀ ty, key = some ty → Recasts types (.type (.user "Type")) ty.toJson ty.toJson)
    (ha : ∀ a, attr = some a → a.Portable) (hka : ∀ a, keyAttr = some a → a.Portable) :
    Recasts types (.type (.user "Type")) (TypeRef.dict value attr key keyAttr).toJson
      (TypeRef.dict value attr key keyAttr).toJson := by
  have hj : (TypeRef.dict value attr key keyAttr).toJson = .object [("dict",
      .object (fieldsOf (own dictType) [some value.toJson, attr.map Attributes.toJson,
        key.map TypeRef.toJson, keyAttr.map Attributes.toJson]))] := by
    simp [TypeRef.toJson_dict, fieldsOf, own, structOf, Definition.struct?, dictType, required,
      optional]
  have hkey : Fits types (own dictType)[2] (key.map TypeRef.toJson) := by
    refine fits_map rfl fun ty hty => ?_
    exact (hk ty hty).plain (Decode.type?_ne_null ty) (Decode.type?_ne_null ty)
  have hr : Recasts types (.type (.user "Dict")) _ _ :=
    recasts_record (s := structOf dictType) rfl rfl (by decide) rfl (.refl _)
      (.cons (fits_type rfl rfl hv) (.cons (fits_attr rfl rfl rfl ha)
        (.cons hkey (.cons (fits_attr rfl rfl rfl hka) .nil))))
  rw [hj]
  exact recasts_type_of (m := (own typeUnion)[2]) (by simp [own]) (hr.plain (by simp) (by simp))

theorem recasts_type {ty : TypeRef} (h : ty.Carries Attributes.Portable) :
    Recasts types (.type (.user "Type")) ty.toJson ty.toJson := by
  induction ty using TypeRef.mentioned.induct with
  | case1 b =>
    exact recasts_type_of (m := (own typeUnion)[0]) (by simp [own])
      ((recasts_builtin b).plain (by simp) (by simp))
  | case2 name =>
    exact recasts_type_of (m := (own typeUnion)[3]) (by simp [own]) (recasts_string name)
  | case3 element attr ih => exact recasts_array (ih h.1) h.2
  | case4 value attr keyAttr ih => exact recasts_dict (ih h.1) (by simp) h.2.1 h.2.2
  | case5 value attr key keyAttr ihv ihk =>
    obtain ⟨hv, hk, ha, hka⟩ := h
    refine recasts_dict (ihv hv) ?_ ha hka
    rintro _ ⟨⟩
    exact ihk hk

/-! ## Definitions -/

theorem fits_doc {m : Member} {o : Option (List String)} (ho : m.optional = true)
    (ht : m.type = list (.builtin .string)) (ha : m.attr = none) :
    Fits types m (o.map strings) := by
  refine fits_map ho fun texts _ => ?_
  rw [ht, ha]
  exact recasts_strings texts

theorem fits_text {m : Member} {o : Option String} (ho : m.optional = true)
    (ht : m.type = .builtin .string) (ha : m.attr = none) : Fits types m (o.map .string) := by
  refine fits_map ho fun s _ => ?_
  rw [ht, ha]
  exact recasts_string s

theorem recasts_member {m : Member} (ht : m.type.Carries Attributes.Portable)
    (ha : ∀ a, m.attr = some a → a.Portable) :
    Recasts types (.type (.user "StructMember")) m.toJson m.toJson := by
  have hj : m.toJson = .object (fieldsOf (own structMember) [some (.string m.name),
      m.doc.map strings, some m.type.toJson, m.attr.map Attributes.toJson,
      if m.optional then some (.bool true) else none]) := by
    simp [Member.toJson, fieldsOf, own, structOf, Definition.struct?, structMember, required,
      optional]
  rw [hj]
  exact recasts_record (s := structOf structMember) rfl rfl (by decide) rfl (.refl _)
    (.cons (fits_some (recasts_string _)) (.cons (fits_doc rfl rfl rfl)
      (.cons (fits_type rfl rfl (recasts_type ht)) (.cons (fits_attr rfl rfl rfl ha)
        (.cons (fits_flag rfl (recasts_bool true)) .nil)))))

theorem recasts_enumValue (v : EnumValue) :
    Recasts types (.type (.user "EnumValue")) v.toJson v.toJson := by
  have hj : v.toJson = .object (fieldsOf (own enumValue) [some (.string v.name),
      v.doc.map strings]) := by
    simp [EnumValue.toJson, fieldsOf, own, structOf, Definition.struct?, enumValue, required,
      optional]
  rw [hj]
  exact recasts_record (s := structOf enumValue) rfl rfl (by decide) rfl (.refl _)
    (.cons (fits_some (recasts_string _)) (.cons (fits_doc rfl rfl rfl) .nil))

theorem recasts_url (u : Url) : Recasts types (.type (.user "ActionURL")) u.toJson u.toJson := by
  have hj : u.toJson = .object (fieldsOf (own actionURL) [u.method.map .string,
      u.path.map .string]) := by
    simp [Url.toJson, fieldsOf, own, structOf, Definition.struct?, actionURL, optional]
  rw [hj]
  exact recasts_record (s := structOf actionURL) rfl rfl (by decide) rfl (.refl _)
    (.cons (fits_text rfl rfl rfl) (.cons (fits_text rfl rfl rfl) .nil))

/-! ### Lists that are not empty -/

theorem length?_of_toJson {w : Value} {js : List Json} (h : w.toJson = .array js) :
    w.length? = some js.length := by
  cases w <;> simp [Value.toJson, Json.ofFloat] at h
  case array ws =>
    rw [← h, Value.toJsonItems_eq_map, List.length_map]
    rfl
  case float x => split at h <;> simp at h

theorem meets_nonEmpty {w : Value} {n : Nat} (hl : w.length? = some n) (h0 : 0 < n) :
    nonEmpty.Meets w := by
  refine ⟨fun {c m} hc => by cases c <;> simp [nonEmpty, Bounds.get?] at hc, fun {c n} hc => ?_⟩
  cases c <;> simp [nonEmpty, Bounds.get?] at hc
  subst hc
  exact ⟨_, hl, decide_eq_true (Number.zero_lt_ofNat h0)⟩

theorem fits_nonEmpty {α : Type} {m : Member} {element : TypeRef} {f : α → Json}
    {o : Option (List α)} (hm : m.optional = true ∧ m.type = list element ∧ m.attr = some nonEmpty)
    (ho : o ≠ some [])
    (h : ∀ l, o = some l → ∀ a ∈ l, Recasts types (.site element none) (f a) (f a)) :
    Fits types m (o.map fun l => .array (l.map f)) := by
  obtain ⟨hopt, ht, ha⟩ := hm
  refine fits_map hopt fun l hl => ?_
  rw [ht, ha]
  refine (recasts_map (h l hl)).bounded (by simp) (by simp) rfl fun w hw => ?_
  refine brokenBound?_eq_none_iff.2 fun a he => Option.some.inj he ▸ meets_nonEmpty
    (length?_of_toJson hw) ?_
  rw [List.length_map]
  exact List.length_pos_of_ne_nil fun hnil => ho (hnil ▸ hl)

theorem fits_bases {m : Member} {o : Option (List String)}
    (hm : m.optional = true ∧ m.type = list (.builtin .string) ∧ m.attr = some nonEmpty)
    (ho : o ≠ some []) : Fits types m (o.map strings) :=
  fits_nonEmpty (f := Json.string) hm ho fun _ _ s _ => recasts_string s

/-! ### Kinds of definitions -/

theorem fits_userBase (name : String) (doc : Option (List String)) (docGroup : Option String) :
    List.Forall₂ (Fits types) (own userBase)
      [some (.string name), doc.map strings, docGroup.map .string] :=
  .cons (fits_some (recasts_string name)) (.cons (fits_doc rfl rfl rfl)
    (.cons (fits_text rfl rfl rfl) .nil))

theorem recasts_enum {e : Enum} (hb : e.bases ≠ some []) (hv : e.values ≠ some []) :
    Recasts types (.type (.user "Enum")) e.toJson e.toJson := by
  have hj : e.toJson = .object (fieldsOf (own userBase ++ own enumType)
      ([some (.string e.name), e.doc.map strings, e.docGroup.map .string]
        ++ [e.bases.map strings,
          e.values.map fun vs => .array (vs.map EnumValue.toJson)])) := by
    simp [Enum.toJson, fieldsOf, own, structOf, Definition.struct?, enumType, userBase, required,
      optional, bounded]
  have hvalues : Fits types (own enumType)[1]
      (e.values.map fun vs => .array (vs.map EnumValue.toJson)) :=
    fits_nonEmpty ⟨rfl, rfl, rfl⟩ hv fun _ _ v _ =>
      (recasts_enumValue v).plain (by simp [EnumValue.toJson]) (by simp [EnumValue.toJson])
  rw [hj]
  exact recasts_record (s := structOf enumType) rfl rfl (by decide) rfl (.refl _)
    (List.rel_append (fits_userBase _ _ _) (.cons (fits_bases ⟨rfl, rfl, rfl⟩ hb)
      (.cons hvalues .nil)))

theorem recasts_typedef {t : Typedef} (ht : t.type.Carries Attributes.Portable)
    (ha : ∀ a, t.attr = some a → a.Portable) :
    Recasts types (.type (.user "Typedef")) t.toJson t.toJson := by
  have hj : t.toJson = .object (fieldsOf (own userBase ++ own typedefType)
      ([some (.string t.name), t.doc.map strings, t.docGroup.map .string]
        ++ [some t.type.toJson, t.attr.map Attributes.toJson])) := by
    simp [Typedef.toJson, fieldsOf, own, structOf, Definition.struct?, typedefType, userBase,
      required, optional]
  rw [hj]
  exact recasts_record (s := structOf typedefType) rfl rfl (by decide) rfl (.refl _)
    (List.rel_append (fits_userBase _ _ _) (.cons (fits_type rfl rfl (recasts_type ht))
      (.cons (fits_attr rfl rfl rfl ha) .nil)))

theorem recasts_action (a : Action) :
    Recasts types (.type (.user "Action")) a.toJson a.toJson := by
  have hj : a.toJson = .object (fieldsOf (own userBase ++ own actionType)
      ([some (.string a.name), a.doc.map strings, a.docGroup.map .string]
        ++ (a.urls.map fun us => .array (us.map Url.toJson))
          :: Section.all.map fun s => (a.type? s).map .string)) := by
    simp [Action.toJson, fieldsOf, own, structOf, Definition.struct?, actionType, userBase,
      required, optional, Section.all, Section.name]
  have hurls : Fits types (own actionType)[0]
      (a.urls.map fun us => .array (us.map Url.toJson)) := by
    refine fits_map rfl fun us _ => ?_
    exact (recasts_map fun u _ => (recasts_url u).plain (by simp [Url.toJson])
      (by simp [Url.toJson])).plain (by simp) (by simp)
  have hsections : List.Forall₂ (Fits types) ((own actionType).drop 1)
      (Section.all.map fun s => (a.type? s).map .string) := by
    refine forall₂_fits (.builtin .string) none rfl ?_ fun j hjv => ?_
    · simp [own, structOf, Definition.struct?, actionType, optional]
    · obtain ⟨s, -, hs⟩ := List.mem_map.1 hjv
      obtain ⟨name, -, rfl⟩ := Option.map_eq_some_iff.1 hs
      exact recasts_string name
  rw [hj]
  exact recasts_record (s := structOf actionType) rfl rfl (by decide) rfl (.refl _)
    (List.rel_append (fits_userBase _ _ _) (.cons hurls hsections))

/-- A struct comes back with its members in the order of the model. -/
theorem exists_recasts_struct {s : Struct} (hb : s.bases ≠ some []) (hms : s.members ≠ some [])
    (h : (Definition.struct s).Carries Attributes.Portable) :
    ∃ j, Recasts types (.type (.user "Struct")) s.toJson j ∧ j ≠ .null
      ∧ Decode.struct? j = some s := by
  let values : List (Option Json) := [some (.string s.name), s.doc.map strings,
      s.docGroup.map .string]
    ++ [s.bases.map strings, if s.union then some (.bool true) else none,
      s.members.map fun ms => .array (ms.map Member.toJson)]
  have hfields : fieldsOf (own userBase ++ own structType) values
      = ("name", .string s.name) :: (given "doc" strings s.doc
        ++ (given "docGroup" .string s.docGroup ++ (given "bases" strings s.bases
          ++ (flag "union" s.union
            ++ given "members" (fun ms => .array (ms.map Member.toJson)) s.members)))) := by
    simp [fieldsOf, own, structOf, Definition.struct?, structType, userBase, required, optional,
      bounded, values]
  have hmembers : Fits types (own structType)[2]
      (s.members.map fun ms => .array (ms.map Member.toJson)) := by
    refine fits_nonEmpty ⟨rfl, rfl, rfl⟩ hms fun ms he m hm => ?_
    obtain ⟨ht, ha⟩ := h m (by rw [he]; exact hm)
    exact (recasts_member ht ha).plain (by simp [Member.toJson]) (by simp [Member.toJson])
  refine ⟨.object (fieldsOf (own userBase ++ own structType) values), ?_, by simp, ?_⟩
  · refine recasts_record (s := structOf structType) rfl rfl (by decide) rfl ?_
      (List.rel_append (fits_userBase _ _ _) (.cons (fits_bases ⟨rfl, rfl, rfl⟩ hb)
        (.cons (fits_flag rfl (recasts_bool true)) (.cons hmembers .nil))))
    rw [hfields]
    simp only [List.append_assoc]
    refine .cons _ (.append_left _ (.append_left _ ?_))
    rw [← List.append_assoc, ← List.append_assoc]
    exact List.perm_append_comm.append_right _
  · rw [hfields]
    refine Decode.struct?_of_record rfl rfl ?_ ?_ ?_ ?_ ?_ fun m hm => ?_
    case refine_6 =>
      obtain ⟨ht, ha⟩ := h m hm
      exact Decode.member?_toJson (ht.mono fun _ h => h.finite) fun a he => (ha a he).finite
    all_goals simp

/-! ### Definitions and models -/

theorem recasts_userType {m : Member} {j j' : Json} (hm : m ∈ own userType)
    (h : Recasts types (.site m.type m.attr) j j') :
    Recasts types (.type (.user "UserType")) (.object [(m.name, j)]) (.object [(m.name, j')]) :=
  recasts_union (s := structOf userType) rfl rfl rfl (by decide) hm h

theorem exists_recasts_definition {d : Definition} (hd : d.Filled)
    (h : d.Carries Attributes.Portable) :
    ∃ j, Recasts types (.type (.user "UserType")) d.toJson j
      ∧ Decode.definition? j = some d := by
  have hfinite : d.Carries Attributes.Finite := h.mono fun _ h => h.finite
  cases d with
  | struct s =>
    obtain ⟨j, hr, hn, hs⟩ := exists_recasts_struct hd.1 hd.2 h
    refine ⟨_, recasts_userType (m := (own userType)[1]) (by simp [own])
      (hr.plain (by simp [Struct.toJson]) hn), ?_⟩
    show Decode.definition? (.object [("struct", j)]) = some (.struct s)
    rw [Decode.definition?, if_pos rfl, hs]
    rfl
  | enum e =>
    exact ⟨_, recasts_userType (m := (own userType)[0]) (by simp [own])
      ((recasts_enum hd.1 hd.2).plain (by simp [Enum.toJson]) (by simp [Enum.toJson])),
      Decode.definition?_toJson hfinite⟩
  | typedef t =>
    exact ⟨_, recasts_userType (m := (own userType)[2]) (by simp [own])
      ((recasts_typedef h.1 h.2).plain (by simp [Typedef.toJson]) (by simp [Typedef.toJson])),
      Decode.definition?_toJson hfinite⟩
  | action a =>
    exact ⟨_, recasts_userType (m := (own userType)[3]) (by simp [own])
      ((recasts_action a).plain (by simp [Action.toJson]) (by simp [Action.toJson])),
      Decode.definition?_toJson hfinite⟩

/-- The members of a model, each as it is written, and the definitions that come back. -/
theorem exists_recasts_entries (entries : List (String × Definition))
    (h : ∀ e ∈ entries, e.2.Filled ∧ e.2.Carries Attributes.Portable) :
    ∃ members : List (String × Json), List.Forall₂ (fun m m' => m.1 = m'.1
          ∧ Recasts types (.site (.user "UserType") none) m.2 m'.2)
        (entries.map fun (name, d) => (name, d.toJson)) members
      ∧ List.Forall₂ (fun m e => m.1 = e.1 ∧ Decode.definition? m.2 = some e.2) members
        entries := by
  induction entries with
  | nil => exact ⟨[], .nil, .nil⟩
  | cons e entries ih =>
    obtain ⟨⟨hf, hp⟩, hs⟩ := List.forall_mem_cons.1 h
    obtain ⟨members, hr, hd⟩ := ih hs
    obtain ⟨j, hrj, hdj⟩ := exists_recasts_definition hf hp
    have hj : j ≠ .null := by
      rintro rfl
      simp [Decode.definition?] at hdj
    have hdn : e.2.toJson ≠ .null := by
      cases e.2 <;> simp [Definition.toJson]
    exact ⟨(e.1, j) :: members, .cons ⟨rfl, hrj.plain hdn hj⟩ hr, .cons ⟨rfl, hdj⟩ hd⟩

/-- The JSON of a model that is not empty is valid, and the model comes back from what is read. -/
theorem exists_reads_types {ts : Types} (h0 : 0 < ts.size) (hf : ts.Filled)
    (h : ts.Carries Attributes.Portable) :
    ∃ w, Reads types (.type (.user "Types")) (.ofJson ts.toJson) w
      ∧ Types.ofJson? w.toJson = some ts := by
  obtain ⟨members, hr, hd⟩ := exists_recasts_entries ts.entries fun e he =>
    have hget := NameMap.get?_eq_some_iff.2 he
    ⟨hf e.1 e.2 hget, h e.1 e.2 hget⟩
  have hnames : members.map Prod.fst = ts.entries.map Prod.fst := by
    have hd' := hd.imp fun _ _ h => h.1
    rwa [← List.forall₂_eq_eq_eq, List.forall₂_map_left_iff, List.forall₂_map_right_iff]
  have hn : (members.map Prod.fst).Nodup := by
    rw [hnames]
    exact (List.pairwise_map.2 ts.sorted).imp fun hlt => ne_of_lt hlt
  obtain ⟨entries, hre, hj, hl⟩ := exists_reads_dict hn hr
  have hc : types.isCircular (.user "Types") = false := by decide +kernel
  refine ⟨.object entries, ?_, ?_⟩
  · refine .typedef rfl hc (.value rfl (by simp [allowsNull, nonEmpty]) hre rfl ?_)
    refine brokenBound?_eq_none_iff.2 fun a ha => Option.some.inj ha ▸ meets_nonEmpty rfl ?_
    rw [hl, hd.length_eq]
    exact h0
  · rw [hj]
    exact Types.ofJson?_eq hd

end Bootstrap

end SchemaLang
