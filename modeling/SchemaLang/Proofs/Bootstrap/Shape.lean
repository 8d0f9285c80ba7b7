import SchemaLang.Proofs.Bootstrap.Fields
import SchemaLang.Proofs.Validate.Model

/-!
# What has the shape of a type model is read as one

`Bootstrap.types` and the reading of type models say the same thing twice.  Here the first is shown
to be no wider than the second: the JSON of a value that conforms to one of its types is read as
what the type stands for, with bounds that come back from JSON and without an empty list where the
shape asks for items.  So validation fails before anything is read or by a finding of the linter,
and a model that has been taken is taken again from the JSON that is written for it.

* `exists_attributes?`, `exists_type?`, `exists_definition?`: what each part is read as.
* `ofValue_agrees`: the shape and the reading agree, and what is valid stays so.
-/

namespace SchemaLang

namespace NameMap

variable {α : Type}

theorem ofList_append_singleton (entries : List (String × α)) (e : String × α) :
    ofList (entries ++ [e]) = (ofList entries).insert e.1 e.2 := by
  rw [ofList, List.foldl_append]
  rfl

theorem mem_of_get?_ofList {name : String} {a : α} {entries : List (String × α)}
    (h : (ofList entries).get? name = some a) : (name, a) ∈ entries := by
  induction entries using List.reverseRec with
  | nil => simp [ofList] at h
  | append_singleton entries e ih =>
    rw [ofList_append_singleton, get?_insert] at h
    split at h
    · next hn => simp [← hn, ← Option.some.inj h]
    · exact List.mem_append_left _ (ih h)

theorem size_ofList_pos {entries : List (String × α)} (h : entries ≠ []) :
    0 < (ofList entries).size := by
  induction entries using List.reverseRec with
  | nil => exact absurd rfl h
  | append_singleton entries e _ =>
    have hget : (ofList (entries ++ [e])).get? e.1 = some e.2 := by
      rw [ofList_append_singleton, get?_insert, if_pos rfl]
    exact List.length_pos_of_mem (get?_eq_some_iff.1 hget)

end NameMap

namespace Bootstrap

open Validate Decode

/-! ## Attributes -/

theorem exists_attributes? {j : Json} (h : Writes (.type (.user "Attributes")) j) :
    ∃ a, attributes? j = some a ∧ a.Portable := by
  obtain ⟨fields, rfl, hf⟩ := h.fields (structOf attributesType) (own attributesType) rfl rfl rfl
  obtain ⟨nullable, hnullable⟩ := hf.exists_flag? (m := (own attributesType)[0])
    (List.getElem_mem _) rfl rfl
  obtain ⟨number, hnumber, hfinite⟩ := exists_bounds? (r := fun k => Entries.get? k fields)
    (m := .number) (f := float?) (P := fun x => x.isFinite = true) fun c => by
      obtain ⟨m, hm, hname, htype, hattr⟩ : ∃ m ∈ own attributesType,
          m.name = c.fieldName .number ∧ m.type = .builtin .float ∧ m.attr = none := by
        cases c <;> simp [own, structOf, Definition.struct?, attributesType, optional, bounded,
          Comparison.fieldName]
      rw [← hname]
      refine hf.exists_optional? hm fun j hj => ?_
      rw [htype, hattr] at hj
      exact hj.float
  obtain ⟨length, hlength, hcounts⟩ := exists_bounds? (r := fun k => Entries.get? k fields)
    (m := .length) (f := uint64?) (P := fun n => n.toNat < 2 ^ 63) fun c => by
      obtain ⟨m, hm, hname, htype, hattr⟩ : ∃ m ∈ own attributesType,
          m.name = c.fieldName .length ∧ m.type = .builtin .int ∧ m.attr = some nonNegative := by
        cases c <;> simp [own, structOf, Definition.struct?, attributesType, optional, bounded,
          Comparison.fieldName]
      rw [← hname]
      refine hf.exists_optional? hm fun j hj => ?_
      rw [htype, hattr] at hj
      exact .inr hj.count
  refine ⟨{ nullable, number, length }, ?_, hfinite, hcounts⟩
  have hflag : flag? (fun k => Entries.get? k fields) "nullable" = some nullable := hnullable
  rw [attributes?, record?]
  simp only [Option.bind_eq_bind, Option.bind_some, hflag, hnumber, hlength]
  rfl

/-! ## Types -/

theorem Fields.exists_attr? {members : List Member} {fields : List (String × Json)} {m : Member}
    (h : Fields members fields) (hm : m ∈ members) (ht : m.type = .user "Attributes")
    (ha : m.attr = none) :
    ∃ o, optional? (fun k => Entries.get? k fields) m.name attributes? = some o
      ∧ ∀ a, o = some a → a.Portable := by
  refine h.exists_optional? hm fun j hj => ?_
  rw [ht, ha] at hj
  exact .inr (exists_attributes? hj.plain)

theorem sizeOf_field_lt (name : String) {fields : List (String × Json)} {j : Json}
    (h : Entries.get? name fields = some j) : sizeOf j < sizeOf (Json.object fields) := by
  have hm := List.sizeOf_lt_of_mem (Entries.mem_of_get? h)
  rw [Prod.mk.sizeOf_spec] at hm
  rw [Json.object.sizeOf_spec]
  omega

/-- JSON is read as a type if it has the shape of one. -/
def ReadsType (j : Json) : Prop :=
  Writes (.type (.user "Type")) j → ∃ ty, type? j = some ty ∧ ty.Carries Attributes.Portable

theorem Fields.exists_typeMember? {members : List Member} {fields : List (String × Json)}
    {m : Member} (h : Fields members fields) (hm : m ∈ members) (ht : m.type = .user "Type")
    (ha : m.attr = none) (ih : ∀ j, sizeOf j < sizeOf (Json.object fields) → ReadsType j) :
    ∃ o, typeMember? m.name fields = some o ∧ (m.optional = false → ∃ ty, o = some ty)
      ∧ ∀ ty, o = some ty → ty.Carries Attributes.Portable := by
  rw [typeMember?_eq_optional?]
  cases hj : Entries.get? m.name fields with
  | none =>
    refine ⟨none, by rw [optional?, hj], fun ho => ?_, by simp⟩
    obtain ⟨j, hj'⟩ := h.required m hm ho
    simp [hj] at hj'
  | some j =>
    have hw := h.given m hm j hj
    rw [ht, ha] at hw
    obtain ⟨ty, hty, hc⟩ := ih j (sizeOf_field_lt m.name hj) hw.plain
    refine ⟨some ty, ?_, fun _ => ⟨ty, rfl⟩, fun _ he => Option.some.inj he ▸ hc⟩
    rw [optional?, hj]
    cases j with
    | null => simp [type?] at hty
    | _ => simp [hty]

theorem Writes.builtin {j : Json} (h : Writes (.type (.user "BuiltinType")) j) :
    ∃ b, builtin? j = some b := by
  obtain ⟨w, hc, rfl⟩ := h
  have hd : ∃ e, types.get? "BuiltinType" = some (.enum e)
      ∧ (types.values e).map EnumValue.name = Builtin.all.map Builtin.name := ⟨_, rfl, rfl⟩
  obtain ⟨e, hd, hnames⟩ := hd
  cases hc with
  | typedef hd' _ => simp [hd] at hd'
  | struct hd' _ _ _ _ _ => simp [hd] at hd'
  | @enum _ _ value hd' hv =>
    obtain rfl : e = _ := Definition.enum.inj (Option.some.inj (hd.symm.trans hd'))
    have hm : value ∈ types.values e := (Types.mem_walk_iff (sound.enumWalk hd)).2 hv
    have hn := List.mem_map_of_mem (f := EnumValue.name) hm
    rw [hnames] at hn
    obtain ⟨b, -, hb⟩ := List.mem_map.1 hn
    exact ⟨b, by rw [Value.toJson, ← hb, builtin?_name]⟩

theorem exists_arrayType? {j : Json} (h : Writes (.type (.user "Array")) j)
    (ih : ∀ i, sizeOf i < sizeOf j → ReadsType i) :
    ∃ ty, arrayType? j = some ty ∧ ty.Carries Attributes.Portable := by
  obtain ⟨fields, rfl, hf⟩ := h.fields (structOf arrayType) (own arrayType) rfl rfl rfl
  obtain ⟨o, htype, hsome, hc⟩ := hf.exists_typeMember? (m := (own arrayType)[0])
    (List.getElem_mem _) rfl rfl ih
  obtain ⟨element, rfl⟩ := hsome rfl
  obtain ⟨attr, hattr, ha⟩ := hf.exists_attr? (m := (own arrayType)[1]) (List.getElem_mem _) rfl rfl
  refine ⟨.array element attr, ?_, hc element rfl, ha⟩
  have htype' : typeMember? "type" fields = some (some element) := htype
  have hattr' : optional? (fun k => Entries.get? k fields) "attr" attributes? = some attr := hattr
  rw [arrayType?, record?]
  simp only [Option.bind_eq_bind, Option.bind_some, htype', hattr']
  rfl

theorem exists_dictType? {j : Json} (h : Writes (.type (.user "Dict")) j)
    (ih : ∀ i, sizeOf i < sizeOf j → ReadsType i) :
    ∃ ty, dictType? j = some ty ∧ ty.Carries Attributes.Portable := by
  obtain ⟨fields, rfl, hf⟩ := h.fields (structOf dictType) (own dictType) rfl rfl rfl
  obtain ⟨o, htype, hsome, hc⟩ := hf.exists_typeMember? (m := (own dictType)[0])
    (List.getElem_mem _) rfl rfl ih
  obtain ⟨value, rfl⟩ := hsome rfl
  obtain ⟨attr, hattr, ha⟩ := hf.exists_attr? (m := (own dictType)[1]) (List.getElem_mem _) rfl rfl
  obtain ⟨key, hkey, -, hck⟩ := hf.exists_typeMember? (m := (own dictType)[2])
    (List.getElem_mem _) rfl rfl ih
  obtain ⟨keyAttr, hkeyAttr, hka⟩ := hf.exists_attr? (m := (own dictType)[3])
    (List.getElem_mem _) rfl rfl
  refine ⟨.dict value attr key keyAttr, ?_, ?_⟩
  · have htype' : typeMember? "type" fields = some (some value) := htype
    have hkey' : typeMember? "keyType" fields = some key := hkey
    have hattr' : optional? (fun k => Entries.get? k fields) "attr" attributes? = some attr := hattr
    have hkeyAttr' : optional? (fun k => Entries.get? k fields) "keyAttr" attributes?
      = some keyAttr := hkeyAttr
    rw [dictType?, record?]
    simp only [Option.bind_eq_bind, Option.bind_some, htype', hkey', hattr', hkeyAttr']
    rfl
  · cases key with
    | none => exact ⟨hc value rfl, ha, hka⟩
    | some key => exact ⟨hc value rfl, hck key rfl, ha, hka⟩

theorem exists_type? (j : Json) : ReadsType j := by
  induction hn : sizeOf j using Nat.strong_induction_on generalizing j with
  | _ n ih =>
    subst hn
    intro h
    obtain ⟨m, hm, body, rfl, hb⟩ := h.union (structOf typeUnion) (own typeUnion) rfl rfl rfl
    have hlt : ∀ i, sizeOf i < sizeOf body → ReadsType i := fun i hi =>
      ih _ (hi.trans (sizeOf_field_lt m.name (by simp))) i rfl
    simp only [own, structOf, Definition.struct?, typeUnion, Option.getD_some, List.mem_cons,
      List.not_mem_nil, or_false] at hm
    rcases hm with rfl | rfl | rfl | rfl
    · obtain ⟨b, hb⟩ := Writes.builtin (Writes.plain hb)
      exact ⟨.builtin b, by simp [type?, required, hb], trivial⟩
    · obtain ⟨ty, hty, hc⟩ := exists_arrayType? (Writes.plain hb) hlt
      exact ⟨ty, by simp [type?, required, hty], hc⟩
    · obtain ⟨ty, hty, hc⟩ := exists_dictType? (Writes.plain hb) hlt
      exact ⟨ty, by simp [type?, required, hty], hc⟩
    · obtain ⟨name, rfl⟩ := Writes.string hb
      exact ⟨.user name, by simp [type?, required, string?], trivial⟩

/-! ## Definitions -/

theorem Fields.exists_type? {members : List Member} {fields : List (String × Json)} {m : Member}
    (h : Fields members fields) (hm : m ∈ members) (ho : m.optional = false)
    (ht : m.type = .user "Type") (ha : m.attr = none) :
    ∃ ty, required? (fun k => Entries.get? k fields) m.name Decode.type? = some ty
      ∧ ty.Carries Attributes.Portable := by
  refine h.exists_required? hm ho fun j hj => ?_
  rw [ht, ha] at hj
  exact Bootstrap.exists_type? j hj.plain

theorem exists_member? {j : Json} (h : Writes (.type (.user "StructMember")) j) :
    ∃ m, member? j = some m ∧ m.type.Carries Attributes.Portable
      ∧ ∀ a, m.attr = some a → a.Portable := by
  obtain ⟨fields, rfl, hf⟩ := h.fields (structOf structMember) (own structMember) rfl rfl rfl
  let r : Record := fun k => Entries.get? k fields
  obtain ⟨name, hname⟩ : ∃ s, required? r "name" string? = some s :=
    hf.exists_name? (m := (own structMember)[0]) (List.getElem_mem _) rfl rfl rfl
  obtain ⟨doc, hdoc, -⟩ : ∃ o, optional? r "doc" (list? string?) = some o ∧ _ :=
    hf.exists_texts? (m := (own structMember)[1]) (List.getElem_mem _) rfl rfl
  obtain ⟨type, htype, hc⟩ : ∃ ty, required? r "type" type? = some ty ∧ _ :=
    hf.exists_type? (m := (own structMember)[2]) (List.getElem_mem _) rfl rfl rfl
  obtain ⟨attr, hattr, ha⟩ : ∃ o, optional? r "attr" attributes? = some o ∧ _ :=
    hf.exists_attr? (m := (own structMember)[3]) (List.getElem_mem _) rfl rfl
  obtain ⟨optional, hopt⟩ : ∃ b, flag? r "optional" = some b :=
    hf.exists_flag? (m := (own structMember)[4]) (List.getElem_mem _) rfl rfl
  refine ⟨{ name, doc, type, attr, optional }, ?_, hc, ha⟩
  rw [member?, record?]
  simp only [Option.bind_eq_bind, Option.bind_some, r, hname, hdoc, htype, hattr, hopt]
  rfl

theorem exists_enumValue? {j : Json} (h : Writes (.type (.user "EnumValue")) j) :
    ∃ v, enumValue? j = some v := by
  obtain ⟨fields, rfl, hf⟩ := h.fields (structOf enumValue) (own enumValue) rfl rfl rfl
  let r : Record := fun k => Entries.get? k fields
  obtain ⟨name, hname⟩ : ∃ s, required? r "name" string? = some s :=
    hf.exists_name? (m := (own enumValue)[0]) (List.getElem_mem _) rfl rfl rfl
  obtain ⟨doc, hdoc, -⟩ : ∃ o, optional? r "doc" (list? string?) = some o ∧ _ :=
    hf.exists_texts? (m := (own enumValue)[1]) (List.getElem_mem _) rfl rfl
  refine ⟨{ name, doc }, ?_⟩
  rw [enumValue?, record?]
  simp only [Option.bind_eq_bind, Option.bind_some, r, hname, hdoc]
  rfl

theorem exists_url? {j : Json} (h : Writes (.type (.user "ActionURL")) j) :
    ∃ u, url? j = some u := by
  obtain ⟨fields, rfl, hf⟩ := h.fields (structOf actionURL) (own actionURL) rfl rfl rfl
  let r : Record := fun k => Entries.get? k fields
  obtain ⟨method, hmethod⟩ : ∃ o, optional? r "method" string? = some o :=
    hf.exists_text? (m := (own actionURL)[0]) (List.getElem_mem _) rfl rfl
  obtain ⟨path, hpath⟩ : ∃ o, optional? r "path" string? = some o :=
    hf.exists_text? (m := (own actionURL)[1]) (List.getElem_mem _) rfl rfl
  refine ⟨{ method, path }, ?_⟩
  rw [url?, record?]
  simp only [Option.bind_eq_bind, Option.bind_some, r, hmethod, hpath]
  rfl

/-- What all definitions have. -/
theorem Fields.exists_base? {members : List Member} {fields : List (String × Json)}
    (h : Fields (own userBase ++ members) fields) :
    ∃ name doc docGroup, required? (fun k => Entries.get? k fields) "name" string? = some name
      ∧ optional? (fun k => Entries.get? k fields) "doc" (list? string?) = some doc
      ∧ optional? (fun k => Entries.get? k fields) "docGroup" string? = some docGroup := by
  have hm : ∀ {m}, m ∈ own userBase → m ∈ own userBase ++ members := List.mem_append_left _
  obtain ⟨name, hname⟩ := h.exists_name? (m := (own userBase)[0]) (hm (List.getElem_mem _))
    rfl rfl rfl
  obtain ⟨doc, hdoc, -⟩ := h.exists_texts? (m := (own userBase)[1]) (hm (List.getElem_mem _))
    rfl rfl
  obtain ⟨docGroup, hgroup⟩ := h.exists_text? (m := (own userBase)[2]) (hm (List.getElem_mem _))
    rfl rfl
  exact ⟨name, doc, docGroup, hname, hdoc, hgroup⟩

theorem exists_struct? {j : Json} (h : Writes (.type (.user "Struct")) j) :
    ∃ s, struct? j = some s ∧ (Definition.struct s).Filled
      ∧ (Definition.struct s).Carries Attributes.Portable := by
  obtain ⟨fields, rfl, hf⟩ := h.fields (structOf structType) (own userBase ++ own structType)
    rfl rfl rfl
  let r : Record := fun k => Entries.get? k fields
  have hm : ∀ {m}, m ∈ own structType → m ∈ own userBase ++ own structType :=
    List.mem_append_right _
  obtain ⟨name, doc, docGroup, hname, hdoc, hgroup⟩ := hf.exists_base?
  obtain ⟨bases, hbases, hb⟩ : ∃ o, optional? r "bases" (list? string?) = some o ∧ _ :=
    hf.exists_texts? (m := (own structType)[0]) (hm (List.getElem_mem _)) rfl rfl
  obtain ⟨union, hunion⟩ : ∃ b, flag? r "union" = some b :=
    hf.exists_flag? (m := (own structType)[1]) (hm (List.getElem_mem _)) rfl rfl
  obtain ⟨members, hmembers, hms⟩ : ∃ o, optional? r "members" (list? member?) = some o ∧ _ :=
    hf.exists_items? (m := (own structType)[2]) (hm (List.getElem_mem _)) rfl rfl
      fun _ hi => exists_member? hi.plain
  refine ⟨{ name, doc, docGroup, union, bases, members }, ?_,
    ⟨hb rfl, fun hnil => (hms [] hnil).1 rfl rfl⟩, fun m hmem => ?_⟩
  · rw [Decode.struct?, record?]
    simp only [Option.bind_eq_bind, Option.bind_some, r, hname, hdoc, hgroup, hunion, hbases,
      hmembers]
    rfl
  · cases members with
    | none => simp at hmem
    | some l => exact (hms l rfl).2 m hmem

theorem exists_enum? {j : Json} (h : Writes (.type (.user "Enum")) j) :
    ∃ e, enum? j = some e ∧ (Definition.enum e).Filled := by
  obtain ⟨fields, rfl, hf⟩ := h.fields (structOf enumType) (own userBase ++ own enumType)
    rfl rfl rfl
  let r : Record := fun k => Entries.get? k fields
  have hm : ∀ {m}, m ∈ own enumType → m ∈ own userBase ++ own enumType := List.mem_append_right _
  obtain ⟨name, doc, docGroup, hname, hdoc, hgroup⟩ := hf.exists_base?
  obtain ⟨bases, hbases, hb⟩ : ∃ o, optional? r "bases" (list? string?) = some o ∧ _ :=
    hf.exists_texts? (m := (own enumType)[0]) (hm (List.getElem_mem _)) rfl rfl
  obtain ⟨values, hvalues, hvs⟩ : ∃ o, optional? r "values" (list? enumValue?) = some o ∧ _ :=
    hf.exists_items? (P := fun _ => True) (m := (own enumType)[1]) (hm (List.getElem_mem _)) rfl rfl
      fun _ hi => (exists_enumValue? hi.plain).imp fun _ hv => ⟨hv, trivial⟩
  refine ⟨{ name, doc, docGroup, bases, values }, ?_,
    hb rfl, fun hnil => (hvs [] hnil).1 rfl rfl⟩
  rw [enum?, record?]
  simp only [Option.bind_eq_bind, Option.bind_some, r, hname, hdoc, hgroup, hbases, hvalues]
  rfl

theorem exists_typedef? {j : Json} (h : Writes (.type (.user "Typedef")) j) :
    ∃ t, typedef? j = some t ∧ (Definition.typedef t).Carries Attributes.Portable := by
  obtain ⟨fields, rfl, hf⟩ := h.fields (structOf typedefType) (own userBase ++ own typedefType)
    rfl rfl rfl
  let r : Record := fun k => Entries.get? k fields
  have hm : ∀ {m}, m ∈ own typedefType → m ∈ own userBase ++ own typedefType :=
    List.mem_append_right _
  obtain ⟨name, doc, docGroup, hname, hdoc, hgroup⟩ := hf.exists_base?
  obtain ⟨type, htype, hc⟩ : ∃ ty, required? r "type" type? = some ty ∧ _ :=
    hf.exists_type? (m := (own typedefType)[0]) (hm (List.getElem_mem _)) rfl rfl rfl
  obtain ⟨attr, hattr, ha⟩ : ∃ o, optional? r "attr" attributes? = some o ∧ _ :=
    hf.exists_attr? (m := (own typedefType)[1]) (hm (List.getElem_mem _)) rfl rfl
  refine ⟨{ name, doc, docGroup, type, attr }, ?_, hc, ha⟩
  rw [typedef?, record?]
  simp only [Option.bind_eq_bind, Option.bind_some, r, hname, hdoc, hgroup, htype, hattr]
  rfl

theorem exists_action? {j : Json} (h : Writes (.type (.user "Action")) j) :
    ∃ a, action? j = some a := by
  obtain ⟨fields, rfl, hf⟩ := h.fields (structOf actionType) (own userBase ++ own actionType)
    rfl rfl rfl
  let r : Record := fun k => Entries.get? k fields
  have hm : ∀ {m}, m ∈ own actionType → m ∈ own userBase ++ own actionType :=
    List.mem_append_right _
  obtain ⟨name, doc, docGroup, hname, hdoc, hgroup⟩ := hf.exists_base?
  obtain ⟨urls, hurls, -⟩ : ∃ o, optional? r "urls" (list? url?) = some o ∧ _ :=
    hf.exists_items? (P := fun _ => True) (m := (own actionType)[0]) (hm (List.getElem_mem _)) rfl
      rfl fun _ hi => (exists_url? hi.plain).imp fun _ hu => ⟨hu, trivial⟩
  have hsection : ∀ s : Section, ∃ o, optional? r s.name string? = some o := by
    intro s
    obtain ⟨m, hmem, hname, htype, hattr⟩ : ∃ m ∈ own actionType,
        m.name = s.name ∧ m.type = .builtin .string ∧ m.attr = none := by
      cases s <;> simp [own, structOf, Definition.struct?, actionType, optional, Section.name]
    rw [← hname]
    exact hf.exists_text? (hm hmem) htype hattr
  obtain ⟨path, hpath⟩ : ∃ o, optional? r "path" string? = some o := hsection .path
  obtain ⟨query, hquery⟩ : ∃ o, optional? r "query" string? = some o := hsection .query
  obtain ⟨input, hinput⟩ : ∃ o, optional? r "input" string? = some o := hsection .input
  obtain ⟨output, houtput⟩ : ∃ o, optional? r "output" string? = some o := hsection .output
  obtain ⟨errors, herrors⟩ : ∃ o, optional? r "errors" string? = some o := hsection .errors
  refine ⟨{ name, doc, docGroup, urls, path, query, input, output, errors }, ?_⟩
  rw [action?, record?]
  simp only [Option.bind_eq_bind, Option.bind_some, r, hname, hdoc, hgroup, hurls, hpath, hquery,
    hinput, houtput, herrors]
  rfl

theorem exists_definition? {j : Json} (h : Writes (.type (.user "UserType")) j) :
    ∃ d, definition? j = some d ∧ d.Filled ∧ d.Carries Attributes.Portable := by
  obtain ⟨m, hm, body, rfl, hb⟩ := h.union (structOf userType) (own userType) rfl rfl rfl
  simp only [own, structOf, Definition.struct?, userType, Option.getD_some, List.mem_cons,
    List.not_mem_nil, or_false] at hm
  rcases hm with rfl | rfl | rfl | rfl
  · obtain ⟨e, he, hf⟩ := exists_enum? (Writes.plain hb)
    exact ⟨.enum e, by simp [definition?, required, he], hf, trivial⟩
  · obtain ⟨s, hs, hf, hc⟩ := exists_struct? (Writes.plain hb)
    exact ⟨.struct s, by simp [definition?, required, hs], hf, hc⟩
  · obtain ⟨t, ht, hc⟩ := exists_typedef? (Writes.plain hb)
    exact ⟨.typedef t, by simp [definition?, required, ht], trivial, hc⟩
  · obtain ⟨a, ha⟩ := exists_action? (Writes.plain hb)
    exact ⟨.action a, by simp [definition?, required, ha], trivial, trivial⟩

/-! ## Models -/

theorem exists_ofJson? {j : Json} (h : Writes (.type (.user "Types")) j) :
    ∃ ts, Types.ofJson? j = some ts ∧ 0 < ts.size ∧ ts.Filled
      ∧ ts.Carries Attributes.Portable := by
  obtain ⟨t, hd, htype, hattr⟩ : ∃ t, types.get? "Types" = some (.typedef t)
      ∧ t.type = .dict (.user "UserType") none none none ∧ t.attr = some nonEmpty :=
    ⟨_, rfl, rfl, rfl⟩
  obtain ⟨fields, rfl, hne, hfs⟩ : ∃ fields, j = .object fields ∧ fields ≠ []
      ∧ ∀ e ∈ fields, Writes (.site (.user "UserType") none) e.2 := by
    obtain ⟨w, hc, rfl⟩ := h
    cases hc with
    | enum hd' _ => simp [hd] at hd'
    | struct hd' _ _ _ _ _ => simp [hd] at hd'
    | typedef hd' hw =>
      obtain rfl : t = _ := Definition.typedef.inj (Option.some.inj (hd.symm.trans hd'))
      rw [htype, hattr] at hw
      obtain ⟨fields, hj, hne, hfs⟩ := Writes.dict ⟨_, hw, rfl⟩ rfl
      exact ⟨fields, hj, hne rfl, hfs⟩
  obtain ⟨entries, hmap, hlen, hes⟩ := exists_mapM_eq_some
    (f := fun m : String × Json => (definition? m.2).map fun d => (m.1, d))
    (P := fun e : String × Definition => e.2.Filled ∧ e.2.Carries Attributes.Portable)
    fun m hm => by
      obtain ⟨d, hd, hp⟩ := exists_definition? (hfs m hm).plain
      exact ⟨(m.1, d), by rw [hd]; rfl, hp⟩
  refine ⟨NameMap.ofList entries, by rw [Types.ofJson?, hmap]; rfl, NameMap.size_ofList_pos ?_,
    fun name d hget => (hes _ (NameMap.mem_of_get?_ofList hget)).1,
    fun name d hget => (hes _ (NameMap.mem_of_get?_ofList hget)).2⟩
  rintro rfl
  exact hne (List.length_eq_zero_iff.1 hlen.symm)

end Bootstrap

/-- A value that has the shape of a type model is read as one, so that validation fails by its shape
or by findings only, and a model that is valid is valid as it is written again. -/
theorem ofValue_agrees (v : Value) : Types.ofValue v ≠ .error .unreadable
    ∧ ∀ types, Types.ofValue v = .ok types → Types.ofValue (.ofJson types.toJson) = .ok types := by
  cases hv : Bootstrap.types.validateAs "Types" v with
  | error failure => simp [Types.ofValue, readShaped, hv, bind, Except.bind]
  | ok w =>
    obtain ⟨ts, hts, h0, hf, hc⟩ := Bootstrap.exists_ofJson?
      ⟨w, (Types.validateAs_eq_ok_iff.1 hv).2.conforms Bootstrap.sound trivial, rfl⟩
    have hread : Types.ofValue v = ts.checked := by
      rw [Types.ofValue, readShaped, hv]
      simp only [hts, Option.elim_some]
      rfl
    rw [hread, Types.checked]
    split
    · next hl =>
      refine ⟨by simp, ?_⟩
      rintro types ⟨⟩
      exact (Types.ofValue_toJson_iff h0 hf hl).2 hc
    · simp

/-- A model with texts for an empty list, for a flag and for a count. -/
def lenientJson : Json :=
  .object [("T", .object [("struct", .object [("name", .string "T"), ("doc", .string ""),
    ("members", .array [.object [("name", .string "a"), ("optional", .string "true"),
      ("type", .object [("builtin", .string "string")]),
      ("attr", .object [("lenGT", .string " 3")])]])])])]

theorem ofValue_agrees_lenient : ∃ types, Types.ofValue (.ofJson lenientJson) = .ok types
    ∧ types.contains "T" = true ∧ Types.ofValue (.ofJson types.toJson) = .ok types := by
  obtain ⟨types, hv, hc⟩ := exists_ok_of_any (x := Types.ofValue (.ofJson lenientJson))
    (p := fun types => types.contains "T") (by decide +kernel)
  exact ⟨types, hv, hc, (ofValue_agrees _).2 types hv⟩

end SchemaLang
