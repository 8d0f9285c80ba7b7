import SchemaLang.Proofs.Bootstrap

/-!
# Only portable bounds are valid

What is read of the JSON of a type model is read part by part, down to the bounds.

* `Validate.readable_member`, `Validate.readable_items`, `Validate.readable_entries`: parts of what
  can be read can be read.
* `Bootstrap.carries_of_readable_types`: JSON and integers of 64 bits can carry the bounds of a
  model that can be read.
-/

namespace SchemaLang

namespace Validate

/-- JSON that can be read as a type. -/
def Readable (types : Types) (ty : TypeRef) (j : Json) : Prop :=
  ∃ w, Reads types (.type ty) (.ofJson j) w

variable {types : Types}

/-! ## Parts -/

/-- A place where null is not allowed is a place for a type. -/
theorem Reads.type_of_site {ty : TypeRef} {attr : Option Attributes} {v w : Value}
    (h : Reads types (.site ty attr) v w) (ha : allowsNull attr = false) :
    Reads types (.type ty) v w := by
  cases h with
  | null hn _ => simp [ha] at hn
  | value _ _ h _ _ => exact h

theorem exists_of_forall₂ {α β : Type} {R : α → β → Prop} {l₁ : List α} {l₂ : List β}
    (h : List.Forall₂ R l₁ l₂) {a : α} (ha : a ∈ l₁) : ∃ b, R a b := by
  induction h with
  | nil => simp at ha
  | cons hr _ ih =>
    rcases List.mem_cons.1 ha with rfl | ha
    · exact ⟨_, hr⟩
    · exact ih ha

theorem readable_member {name : String} {s : Struct} {members : List Member} {m : Member}
    {fields : List (String × Json)} {j : Json}
    (h : Readable types (.user name) (.object fields)) (hd : types.get? name = some (.struct s))
    (hms : types.members s = members) (hm : m ∈ members) (ha : allowsNull m.attr = false)
    (hj : Entries.get? m.name fields = some j) : Readable types m.type j := by
  obtain ⟨_, h⟩ := h
  obtain ⟨entries, hv, -, -, -, ws, hws, -⟩ := (reads_struct_iff hd).1 h
  obtain rfl : Value.ofJsonMembers fields = entries := by
    rw [Value.ofJson] at hv
    exact Option.some.inj hv
  have hp : (m, Value.ofJson j) ∈ present (types.members s) (Value.ofJsonMembers fields) := by
    rw [mem_present, get?_ofJsonMembers, hj, hms]
    exact ⟨hm, rfl⟩
  obtain ⟨w, hw⟩ := exists_of_forall₂ hws hp
  exact ⟨w, hw.type_of_site ha⟩

theorem readable_items {element : TypeRef} {attr : Option Attributes} {js : List Json}
    (h : Readable types (.array element attr) (.array js)) (ha : allowsNull attr = false) {j : Json}
    (hj : j ∈ js) : Readable types element j := by
  obtain ⟨_, h⟩ := h
  obtain ⟨items, hv, ws, hws, -⟩ := reads_array_iff.1 h
  obtain rfl : js.map Value.ofJson = items := by
    rw [Value.ofJson, Value.ofJsonItems_eq_map] at hv
    exact Option.some.inj hv
  obtain ⟨w, hw⟩ := exists_of_forall₂ hws (List.mem_map_of_mem hj)
  exact ⟨w, hw.type_of_site ha⟩

theorem readable_entries {value : TypeRef} {attr keyAttr : Option Attributes}
    {key : Option TypeRef} {fields : List (String × Json)}
    (h : Readable types (.dict value attr key keyAttr) (.object fields))
    (ha : allowsNull attr = false) {e : String × Json} (he : e ∈ fields) :
    Readable types value e.2 := by
  obtain ⟨_, h⟩ := h
  obtain ⟨entries, hv, pairs, hp, -⟩ := reads_dict_iff.1 h
  obtain rfl : Value.ofJsonMembers fields = entries := by
    rw [Value.ofJson] at hv
    exact Option.some.inj hv
  rw [Value.ofJsonMembers_eq_map] at hp
  obtain ⟨p, -, hw⟩ := exists_of_forall₂ hp (List.mem_map_of_mem he)
  exact ⟨p.2, hw.type_of_site ha⟩

theorem readable_typedef {name : String} {t : Typedef} {j : Json}
    (h : Readable types (.user name) j) (hd : types.get? name = some (.typedef t))
    (ha : allowsNull t.attr = false) : Readable types t.type j := by
  obtain ⟨w, h⟩ := h
  exact ⟨w, ((reads_typedef_iff hd).1 h).2.type_of_site ha⟩

end Validate

namespace Bootstrap

open Validate Encode

/-! ## Bounds -/

theorem isFinite_of_readable {x : Float}
    (h : Readable types (.builtin .float) (Json.ofFloat x)) : x.isFinite = true := by
  obtain ⟨w, h⟩ := h
  rw [Json.ofFloat] at h
  split at h
  · next hx => exact hx
  · have hn := reads_builtin_iff.1 h
    simp [Value.ofJson, Builtin.convert?] at hn

theorem lt_of_readable {n : UInt64}
    (h : Readable types (.builtin .int) (.integer n.toNat)) : n.toNat < 2 ^ 63 := by
  by_contra hn
  obtain ⟨w, h⟩ := h
  have hlt := n.toNat_lt
  have hmax : ¬((n.toNat : Int) ≤ Int64.maxValue.toInt) := by
    show ¬((n.toNat : Int) ≤ 2 ^ 63 - 1)
    omega
  obtain ⟨i, hi, hge⟩ := Number.exists_integral?_ofNat (Nat.not_lt.1 hn) hlt
  have hc : (Builtin.int).convert? (.float (Float.ofNat n.toNat)) = none := by
    rw [Builtin.convert?, int64OfFloat?, hi]
    simp
    exact hge
  have hr := reads_builtin_iff.1 h
  rw [Value.ofJson, Value.ofInteger, if_neg fun h => hmax h.2] at hr
  exact absurd (hc.symm.trans hr) (by simp)

theorem portable_of_readable {a : Attributes}
    (h : Readable types (.user "Attributes") a.toJson) : a.Portable := by
  rw [Decode.toJson_attributes] at h
  refine ⟨fun c x hx => ?_, fun c n hn => ?_⟩
  · obtain ⟨m, hm, hname, htype, hattr⟩ : ∃ m ∈ own attributesType,
        m.name = c.fieldName .number ∧ m.type = .builtin .float ∧ m.attr = none := by
      cases c <;> simp [own, structOf, Definition.struct?, attributesType, optional, bounded,
        Comparison.fieldName]
    have hj := Decode.get?_number a c
    rw [hx] at hj
    have hr := readable_member (s := structOf attributesType) h rfl rfl hm (by rw [hattr]; rfl)
      (hname ▸ hj)
    rw [htype] at hr
    exact isFinite_of_readable hr
  · obtain ⟨m, hm, hname, htype, hattr⟩ : ∃ m ∈ own attributesType, m.name = c.fieldName .length
        ∧ m.type = .builtin .int ∧ m.attr = some nonNegative := by
      cases c <;> simp [own, structOf, Definition.struct?, attributesType, optional, bounded,
        Comparison.fieldName]
    have hj := Decode.get?_length a c
    rw [hn] at hj
    have hr := readable_member (s := structOf attributesType) h rfl rfl hm (by rw [hattr]; rfl)
      (hname ▸ hj)
    rw [htype] at hr
    exact lt_of_readable hr

/-! ## Types -/

theorem portable_of_readable_member {name : String} {d : Definition} {m : Member}
    {fields : List (String × Json)} {o : Option Attributes}
    (h : Readable types (.user name) (.object fields))
    (hd : types.get? name = some (.struct (structOf d)))
    (hms : types.members (structOf d) = own d) (hm : m ∈ own d)
    (ht : m.type = .user "Attributes") (ha : m.attr = none)
    (hj : Entries.get? m.name fields = o.map Attributes.toJson) :
    ∀ a, o = some a → a.Portable := by
  rintro a rfl
  have hr := readable_member h hd hms hm (by rw [ha]; rfl) hj
  rw [ht] at hr
  exact portable_of_readable hr

theorem readable_dict {value : TypeRef} {attr keyAttr : Option Attributes} {key : Option TypeRef}
    (h : Readable types (.user "Type") (TypeRef.dict value attr key keyAttr).toJson) :
    Readable types (.user "Type") value.toJson
      ∧ (∀ ty, key = some ty → Readable types (.user "Type") ty.toJson)
      ∧ (∀ a, attr = some a → a.Portable) ∧ ∀ a, keyAttr = some a → a.Portable := by
  rw [TypeRef.toJson_dict] at h
  have hr : Readable types (.user "Dict") _ :=
    readable_member (s := structOf typeUnion) (m := (own typeUnion)[2]) h rfl rfl
      (List.getElem_mem _) rfl rfl
  refine ⟨readable_member (s := structOf dictType) (m := (own dictType)[0]) hr rfl rfl
    (List.getElem_mem _) rfl rfl, fun ty hk => ?_,
    portable_of_readable_member (d := dictType) (m := (own dictType)[1]) hr rfl rfl
      (List.getElem_mem _) rfl rfl ?_,
    portable_of_readable_member (d := dictType) (m := (own dictType)[3]) hr rfl rfl
      (List.getElem_mem _) rfl rfl ?_⟩
  · refine readable_member (s := structOf dictType) (m := (own dictType)[2]) hr rfl rfl
      (List.getElem_mem _) rfl ?_
    simp [own, structOf, Definition.struct?, dictType, optional, hk]
  · simp [own, structOf, Definition.struct?, dictType, optional]
  · simp [own, structOf, Definition.struct?, dictType, optional]

theorem carries_of_readable {ty : TypeRef} (h : Readable types (.user "Type") ty.toJson) :
    ty.Carries Attributes.Portable := by
  induction ty using TypeRef.mentioned.induct with
  | case1 b => trivial
  | case2 name => trivial
  | case3 element attr ih =>
    have hr : Readable types (.user "Array") _ :=
      readable_member (s := structOf typeUnion) (m := (own typeUnion)[1]) h rfl rfl
        (List.getElem_mem _) rfl rfl
    have he : Readable types (.user "Type") element.toJson :=
      readable_member (s := structOf arrayType) (m := (own arrayType)[0]) hr rfl rfl
        (List.getElem_mem _) rfl rfl
    refine ⟨ih he, portable_of_readable_member (d := arrayType) (m := (own arrayType)[1]) hr rfl rfl
      (List.getElem_mem _) rfl rfl ?_⟩
    simp [own, structOf, Definition.struct?, arrayType, optional]
  | case4 value attr keyAttr ih =>
    obtain ⟨hv, -, ha, hka⟩ := readable_dict h
    exact ⟨ih hv, ha, hka⟩
  | case5 value attr key keyAttr ihv ihk =>
    obtain ⟨hv, hk, ha, hka⟩ := readable_dict h
    exact ⟨ihv hv, ihk (hk key rfl), ha, hka⟩

/-! ## Definitions -/

theorem carries_of_readable_member {m : Member}
    (h : Readable types (.user "StructMember") m.toJson) :
    m.type.Carries Attributes.Portable ∧ ∀ a, m.attr = some a → a.Portable := by
  refine ⟨carries_of_readable (readable_member (s := structOf structMember)
      (m := (own structMember)[2]) h rfl rfl (List.getElem_mem _) rfl ?_),
    portable_of_readable_member (d := structMember) (m := (own structMember)[3]) h rfl rfl
      (List.getElem_mem _) rfl rfl ?_⟩
  · simp [own, structOf, Definition.struct?, structMember, required]
  · simp [own, structOf, Definition.struct?, structMember, optional]

theorem carries_of_readable_struct {s : Struct}
    (h : Readable types (.user "Struct") s.toJson) :
    (Definition.struct s).Carries Attributes.Portable := by
  intro m hm
  cases hms : s.members with
  | none => simp [hms] at hm
  | some ms =>
    rw [hms] at hm
    have hr : Readable types (list (.user "StructMember")) (.array (ms.map Member.toJson)) := by
      have hl : types.members (structOf structType) = own userBase ++ own structType := rfl
      refine readable_member (s := structOf structType) (m := (own structType)[2]) h rfl hl
        (List.mem_append_right _ (List.getElem_mem _)) rfl ?_
      simp [own, structOf, Definition.struct?, structType, optional, bounded, hms]
    exact carries_of_readable_member (readable_items hr rfl (List.mem_map_of_mem hm))

theorem carries_of_readable_typedef {t : Typedef}
    (h : Readable types (.user "Typedef") t.toJson) :
    (Definition.typedef t).Carries Attributes.Portable := by
  have hms : types.members (structOf typedefType) = own userBase ++ own typedefType := rfl
  refine ⟨carries_of_readable (readable_member (s := structOf typedefType)
    (m := (own typedefType)[0]) h rfl hms (List.mem_append_right _ (List.getElem_mem _)) rfl ?_),
    fun a ha => portable_of_readable (readable_member (s := structOf typedefType)
      (m := (own typedefType)[1]) h rfl hms (List.mem_append_right _ (List.getElem_mem _)) rfl ?_)⟩
  · simp [own, structOf, Definition.struct?, typedefType, required]
  · simp [own, structOf, Definition.struct?, typedefType, optional, ha]

theorem carries_of_readable_definition {d : Definition}
    (h : Readable types (.user "UserType") d.toJson) : d.Carries Attributes.Portable := by
  cases d with
  | struct s =>
    exact carries_of_readable_struct (readable_member (s := structOf userType)
      (m := (own userType)[1]) h rfl rfl (List.getElem_mem _) rfl rfl)
  | enum e => trivial
  | typedef t =>
    exact carries_of_readable_typedef (readable_member (s := structOf userType)
      (m := (own userType)[2]) h rfl rfl (List.getElem_mem _) rfl rfl)
  | action a => trivial

/-- A model whose JSON can be read has portable bounds only. -/
theorem carries_of_readable_types {ts : Types} (h : Readable types (.user "Types") ts.toJson) :
    ts.Carries Attributes.Portable := by
  refine Types.carries_iff.2 fun e he => carries_of_readable_definition ?_
  exact readable_entries (readable_typedef h rfl rfl) rfl
    (List.mem_map_of_mem (f := fun e : String × Definition => (e.1, e.2.toJson)) he)

end Bootstrap

end SchemaLang
