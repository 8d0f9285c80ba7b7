import SchemaLang.Proofs.Json.Reading
import SchemaLang.Proofs.Model.Reach
import SchemaLang.Proofs.Model.RoundTrip

/-!
# Type models come back from their texts

The text of a document is read back as it if the document is legible, and a type model comes back
from its document if its bounds are finite.  What is left to show is that the document of a model is
legible.  The members of a record stand in the order of the fields that `Decode` knows, and each is
there at most once, so that no name is repeated; counts have 64 bits.  Whether a bound of another
kind comes back depends on how its digits are rounded, and is asked of the model.

* `Written.object`: what is written for some of the fields, in their order, is legible.
* `TypeRef.legible_toJson`, `Definition.legible_toJson`, `Types.legible_toJson`: so are documents
  of types, definitions and models.
* `Types.ofJson?_parse_render`: a model comes back from its text.
-/

namespace SchemaLang

open Encode Json

/-- The finite bounds come back from their texts. -/
def Attributes.Exact (a : Attributes) : Prop :=
  ∀ c x, a.number.get? c = some x → x.isFinite = true → ReadsBack x

theorem Bounds.forall_mem_toList {α : Type} {P : α → Prop} {b : Bounds α} :
    (∀ e ∈ b.toList, P e.2) ↔ ∀ c a, b.get? c = some a → P a :=
  ⟨fun h c a ha => h (c, a) (mem_toList.2 ha), fun h e he => h e.1 e.2 (mem_toList.1 he)⟩

instance (a : Attributes) : Decidable a.Exact :=
  decidable_of_iff (∀ e ∈ a.number.toList, e.2.isFinite = true → ReadsBack e.2)
    (Bounds.forall_mem_toList (P := fun x : Float => x.isFinite = true → ReadsBack x))

instance (a : Attributes) : Decidable a.Finite :=
  decidable_of_iff (∀ e ∈ a.number.toList, e.2.isFinite = true)
    (Bounds.forall_mem_toList (P := fun x : Float => x.isFinite = true))

/-! ## Records -/

/-- Members with legible values that are named for some of the fields, in their order. -/
structure Written (fields : List String) (members : List (String × Json)) : Prop where
  names : (members.map Prod.fst).Sublist fields
  legible : ∀ m ∈ members, m.2.Legible

variable {fields fields' : List String} {members members' : List (String × Json)} {name : String}

theorem Written.nil : Written [] [] := ⟨List.Sublist.slnil, by simp⟩

theorem Written.append (h : Written fields members) (h' : Written fields' members') :
    Written (fields ++ fields') (members ++ members') := by
  refine ⟨?_, List.forall_mem_append.2 ⟨h.legible, h'.legible⟩⟩
  rw [List.map_append]
  exact h.names.append h'.names

theorem Written.cons {j : Json} (hj : j.Legible) (h : Written fields members) :
    Written (name :: fields) ((name, j) :: members) :=
  ⟨h.names.cons_cons name, List.forall_mem_cons.2 ⟨hj, h.legible⟩⟩

theorem written_given {α : Type} {f : α → Json} {o : Option α}
    (h : ∀ a, o = some a → (f a).Legible) : Written [name] (given name f o) := by
  cases o with
  | none => exact ⟨List.nil_sublist _, by simp [given]⟩
  | some a => exact .cons (h a rfl) .nil

theorem written_flag (b : Bool) : Written [name] (flag name b) := by
  cases b with
  | false => exact ⟨List.nil_sublist _, by simp [flag]⟩
  | true => exact .cons (.bool true) .nil

theorem written_flatMap {ι : Type} {l : List ι} {field : ι → String}
    {part : ι → List (String × Json)} (h : ∀ i ∈ l, Written [field i] (part i)) :
    Written (l.map field) (l.flatMap part) := by
  induction l with
  | nil => exact .nil
  | cons i l ih =>
    obtain ⟨hi, hl⟩ := List.forall_mem_cons.1 h
    rw [List.flatMap_cons]
    exact hi.append (ih hl)

/-- No name is repeated where no field is. -/
theorem Written.object (h : Written fields members) (hn : fields.Nodup) :
    (Json.object members).Legible :=
  .object (h.names.nodup hn) h.legible

/-! ## Members -/

theorem legible_array {α : Type} {f : α → Json} {l : List α} (h : ∀ a ∈ l, (f a).Legible) :
    (Json.array (l.map f)).Legible :=
  .array (List.forall_mem_map.2 h)

theorem legible_strings (texts : List String) : (strings texts).Legible :=
  legible_array fun s _ => .string s

theorem written_strings (o : Option (List String)) : Written [name] (given name strings o) :=
  written_given fun texts _ => legible_strings texts

theorem written_text (o : Option String) : Written [name] (given name .string o) :=
  written_given fun s _ => .string s

theorem legible_ofFloat {x : Float} (h : x.isFinite = true → ReadsBack x) :
    (ofFloat x).Legible := by
  rw [ofFloat]
  split
  · next hx => exact .float (h hx)
  · exact .null

theorem legible_count (n : UInt64) : (Json.integer n.toNat).Legible := by
  have hn : n.toNat < UInt64.size := n.toNat_lt_size
  exact .integer (by omega) (by omega)

theorem written_bounds {α : Type} {b : Bounds α} {f : α → Json} (m : Measure)
    (h : ∀ c a, b.get? c = some a → (f a).Legible) :
    Written (Comparison.all.map (Comparison.fieldName m)) (b.members m f) := by
  rw [Decode.members_eq_flatMap]
  exact written_flatMap fun c _ => written_given (h c)

theorem Attributes.legible_toJson {a : Attributes} (h : a.Exact) : a.toJson.Legible := by
  have hnumber := written_bounds (f := ofFloat) .number fun c x hx => legible_ofFloat (h c x hx)
  have hlength := written_bounds (f := fun n => .integer n.toNat) .length
    fun c n (_ : a.length.get? c = some n) => legible_count n
  have hw : Written Decode.attributeFields _ :=
    ((written_flag a.nullable).append hnumber).append hlength
  exact hw.object (by decide)

theorem written_attributes {o : Option Attributes} (h : ∀ a, o = some a → a.Exact) :
    Written [name] (given name Attributes.toJson o) :=
  written_given fun a ha => Attributes.legible_toJson (h a ha)

/-! ## Types -/

/-- A choice is an object with one member. -/
theorem legible_choice {j : Json} (tag : String) (h : j.Legible) :
    (Json.object [(tag, j)]).Legible :=
  (Written.cons h .nil).object (List.nodup_singleton tag)

theorem written_array {element : TypeRef} {attr : Option Attributes}
    (he : element.toJson.Legible) (ha : ∀ a, attr = some a → a.Exact) :
    Written Decode.arrayFields (("type", element.toJson) :: given "attr" Attributes.toJson attr) :=
  .cons he (written_attributes ha)

theorem written_dict {value : TypeRef} {attr keyAttr : Option Attributes} {key : Option TypeRef}
    (hv : value.toJson.Legible) (hk : ∀ ty, key = some ty → ty.toJson.Legible)
    (ha : ∀ a, attr = some a → a.Exact) (hka : ∀ a, keyAttr = some a → a.Exact) :
    Written Decode.dictFields (("type", value.toJson) :: (given "attr" Attributes.toJson attr
      ++ (given "keyType" TypeRef.toJson key ++ given "keyAttr" Attributes.toJson keyAttr))) :=
  .cons hv ((written_attributes ha).append ((written_given hk).append (written_attributes hka)))

theorem TypeRef.legible_toJson {ty : TypeRef} (h : ty.Carries Attributes.Exact) :
    ty.toJson.Legible := by
  induction ty using TypeRef.mentioned.induct with
  | case1 b => exact legible_choice "builtin" (.string b.name)
  | case2 name => exact legible_choice "user" (.string name)
  | case3 element attr ih =>
    obtain ⟨he, ha⟩ := h
    exact legible_choice "array" ((written_array (ih he) ha).object (by decide))
  | case4 value attr keyAttr ih =>
    obtain ⟨hv, ha, hk⟩ := h
    rw [TypeRef.toJson_dict]
    exact legible_choice "dict" ((written_dict (ih hv) (by simp) ha hk).object (by decide))
  | case5 value attr key keyAttr ihv ihk =>
    obtain ⟨hv, hkey, ha, hk⟩ := h
    have hkey : ∀ ty, some key = some ty → ty.toJson.Legible := by
      rintro ty ⟨⟩
      exact ihk hkey
    rw [TypeRef.toJson_dict]
    exact legible_choice "dict" ((written_dict (ihv hv) hkey ha hk).object (by decide))

/-! ## Definitions -/

theorem Member.legible_toJson {m : Member} (ht : m.type.Carries Attributes.Exact)
    (ha : ∀ a, m.attr = some a → a.Exact) : m.toJson.Legible := by
  have hw : Written ["name", "doc", "type", "attr", "optional"] _ :=
    .cons (.string m.name) ((written_strings m.doc).append
      (.cons (TypeRef.legible_toJson ht)
        ((written_attributes ha).append (written_flag m.optional))))
  exact hw.object (by decide)

theorem Struct.legible_toJson {s : Struct} (h : (Definition.struct s).Carries Attributes.Exact) :
    s.toJson.Legible := by
  have hmembers : Written ["members"]
      (given "members" (fun ms => .array (ms.map Member.toJson)) s.members) := by
    refine written_given fun ms he => legible_array fun m hm => ?_
    have hcarries := h m (by rw [he]; exact hm)
    exact Member.legible_toJson hcarries.1 hcarries.2
  have hw : Written ["name", "doc", "docGroup", "union", "bases", "members"] _ :=
    .cons (.string s.name) (((((written_strings s.doc).append (written_text s.docGroup)).append
      (written_flag s.union)).append (written_strings s.bases)).append hmembers)
  exact hw.object (by decide)

theorem EnumValue.legible_toJson (v : EnumValue) : v.toJson.Legible := by
  have hw : Written ["name", "doc"] _ := .cons (.string v.name) (written_strings v.doc)
  exact hw.object (by decide)

theorem Enum.legible_toJson (e : Enum) : e.toJson.Legible := by
  have hvalues : Written ["values"]
      (given "values" (fun vs => .array (vs.map EnumValue.toJson)) e.values) :=
    written_given fun vs _ => legible_array fun v _ => v.legible_toJson
  have hw : Written ["name", "doc", "docGroup", "bases", "values"] _ :=
    .cons (.string e.name) ((((written_strings e.doc).append (written_text e.docGroup)).append
      (written_strings e.bases)).append hvalues)
  exact hw.object (by decide)

theorem Typedef.legible_toJson {t : Typedef} (h : (Definition.typedef t).Carries Attributes.Exact) :
    t.toJson.Legible := by
  have hw : Written ["name", "doc", "docGroup", "type", "attr"] _ :=
    .cons (.string t.name) (((written_strings t.doc).append (written_text t.docGroup)).append
      (.cons (TypeRef.legible_toJson h.1) (written_attributes h.2)))
  exact hw.object (by decide)

theorem Url.legible_toJson (u : Url) : u.toJson.Legible := by
  have hw : Written ["method", "path"] _ := (written_text u.method).append (written_text u.path)
  exact hw.object (by decide)

theorem Action.legible_toJson (a : Action) : a.toJson.Legible := by
  have hurls : Written ["urls"] (given "urls" (fun us => .array (us.map Url.toJson)) a.urls) :=
    written_given fun us _ => legible_array fun u _ => u.legible_toJson
  have hsections : Written (Section.all.map Section.name)
      (Section.all.flatMap fun s => given s.name .string (a.type? s)) :=
    written_flatMap fun s _ => written_text (a.type? s)
  have hw : Written ("name" :: "doc" :: "docGroup" :: "urls" :: Section.all.map Section.name) _ :=
    .cons (.string a.name) ((((written_strings a.doc).append (written_text a.docGroup)).append
      hurls).append hsections)
  exact hw.object (by decide)

theorem Definition.legible_toJson {d : Definition} (h : d.Carries Attributes.Exact) :
    d.toJson.Legible := by
  cases d with
  | struct s => exact legible_choice "struct" (Struct.legible_toJson h)
  | enum e => exact legible_choice "enum" e.legible_toJson
  | typedef t => exact legible_choice "typedef" (Typedef.legible_toJson h)
  | action a => exact legible_choice "action" a.legible_toJson

/-! ## Models -/

theorem Types.legible_toJson {types : Types} (h : types.Carries Attributes.Exact) :
    types.toJson.Legible := by
  refine .object ?_ (List.forall_mem_map.2 fun e he => ?_)
  · rw [List.map_map]
    exact types.nodup_names
  · exact Definition.legible_toJson (Types.carries_iff.1 h e he)

theorem TypeModel.legible_toJson {m : TypeModel} (h : m.types.Carries Attributes.Exact) :
    m.toJson.Legible := by
  have hw : Written ["title", "types"] _ :=
    .cons (.string m.title) (.cons (Types.legible_toJson h) .nil)
  exact hw.object (by decide)

/-- A model with finite bounds that come back from their digits comes back from its text, with a
title and without one. -/
theorem Types.ofJson?_parse_render {types : Types} (hfinite : types.Carries Attributes.Finite)
    (hexact : types.Carries Attributes.Exact) :
    (types.toJson.depth ≤ maxDepth → ∀ layout, ∃ json, parse (types.render layout) = .ok json
      ∧ Types.ofJson? json = some types)
    ∧ ∀ title, (TypeModel.mk title types).toJson.depth ≤ maxDepth → ∀ layout, ∃ json,
      parse ((TypeModel.mk title types).render layout) = .ok json
        ∧ TypeModel.ofJson? json = some (TypeModel.mk title types) := by
  constructor
  · intro hd layout
    exact ⟨_, Json.parse_render layout (legible_toJson hexact) hd, ofJson?_toJson hfinite⟩
  · intro title hd layout
    have hlegible : (TypeModel.mk title types).toJson.Legible := TypeModel.legible_toJson hexact
    exact ⟨_, Json.parse_render layout hlegible hd, TypeModel.ofJson?_toJson hfinite⟩

/-- A model with bounds of either kind, nested types, documentation and every kind of definition. -/
def Types.measured : Types := .ofList [
  ("Level", .typedef {
    name := "Level"
    doc := some ["From \"low\"\tto high", "C:\\levels \x01"]
    type := .builtin .float
    attr := some { number := { gte := some (-1.25), lt := some 1e22 } } }),
  ("Readings", .struct {
    name := "Readings"
    docGroup := some "Größen"
    bases := some []
    members := some [
      { name := "levels"
        type := .dict
          (.array (.user "Level") (some { length := { lte := some 18446744073709551615 } }))
          (some { nullable := true }) (some (.user "Unit")) (some { length := { gt := some 0 } })
        attr := some { length := { gte := some 1, lte := some 8 } }
        optional := true },
      { name := "share", type := .builtin .float
        attr := some { nullable := true, number := { gt := some 0.5, lte := some 1e-7 } } }] }),
  ("Unit", .enum { name := "Unit", values := some [{ name := "kg", doc := some [] }] }),
  ("measure", .action {
    name := "measure", urls := some [{ method := some "GET", path := some "/m" }, {}]
    output := some "measure_output" })]

theorem Types.ofJson?_parse_render_measured :
    measured.Carries Attributes.Finite ∧ measured.Carries Attributes.Exact
      ∧ measured.toJson.depth ≤ maxDepth
      ∧ (TypeModel.mk "A \"title\"" measured).toJson.depth ≤ maxDepth
      ∧ (∃ json, parse (measured.render .compact) = .ok json ∧ Types.ofJson? json = some measured)
      ∧ ∃ json, parse ((TypeModel.mk "A \"title\"" measured).render .pretty) = .ok json
        ∧ TypeModel.ofJson? json = some (TypeModel.mk "A \"title\"" measured) := by
  have hfinite : measured.Carries Attributes.Finite := by decide +kernel
  have hexact : measured.Carries Attributes.Exact := by decide +kernel
  have hd : measured.toJson.depth ≤ maxDepth := by decide +kernel
  have hdt : (TypeModel.mk "A \"title\"" measured).toJson.depth ≤ maxDepth := by decide +kernel
  have h := ofJson?_parse_render hfinite hexact
  exact ⟨hfinite, hexact, hd, hdt, h.1 hd .compact, h.2 _ hdt .pretty⟩

end SchemaLang
