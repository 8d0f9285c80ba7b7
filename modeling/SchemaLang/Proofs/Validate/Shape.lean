import SchemaLang.Proofs.Validate.Reordered

/-!
# The shape of what is validated

Validation reads scalars anew and brings the members of a struct into the order of the struct, but
nothing comes in and nothing gets lost: `Types.SameShape` lists what is in a container together
with what it is read as.  No two entries of a dict become one, because keys stay as they are but
for the text `null`, and no object of JSON has the null key beside that text.

* `Reads.sameShape`: what is read has the shape of what it is read from.
* `sameShape_and_shuffled_of_validateAs`: so does what is validated, and the order of objects
  matters no further than to what keeps its order.
-/

namespace SchemaLang

open Value (Writable Rearranged)

/-- The key that stays of a key of a dict. -/
def Validate.keptKey (attr : Option Attributes) (k : Key) : Key :=
  if allowsNull attr = true ∧ k = .text "null" then .null else k

/-- The second value has what the first has: item for item, entry for entry and member for
member. -/
inductive Types.SameShape (types : Types) : TypeRef → Value → Value → Prop
  | scalar {ty : TypeRef} {v w : Value} (hv : v.isContainer = false)
      (hw : w.isContainer = false) : SameShape types ty v w
  | whole {b : Builtin} (hb : ¬b.Textual) (v : Value) : SameShape types (.builtin b) v v
  | array {element : TypeRef} {attr : Option Attributes} {v : Value} (ps : List (Value × Value))
      (hv : v.items? = some (ps.map Prod.fst)) (h : ∀ p ∈ ps, SameShape types element p.1 p.2) :
      SameShape types (.array element attr) v (.array (ps.map Prod.snd))
  | dict {value : TypeRef} {attr keyAttr : Option Attributes} {key : Option TypeRef} {v : Value}
      (ps : List (Key × Value × Value)) (hv : v.entries? = some (ps.map fun p => (p.1, p.2.1)))
      (hn : (ps.map fun p => Validate.keptKey keyAttr p.1).Nodup)
      (h : ∀ p ∈ ps, SameShape types value p.2.1 p.2.2) :
      SameShape types (.dict value attr key keyAttr) v
        (.object (ps.map fun p => (Validate.keptKey keyAttr p.1, p.2.2)))
  | typedef {name : String} {t : Typedef} {v w : Value}
      (hd : types.get? name = some (.typedef t)) (h : SameShape types t.type v w) :
      SameShape types (.user name) v w
  | struct {name : String} {s : Struct} {v : Value} {entries : List (Key × Value)}
      (hd : types.get? name = some (.struct s)) (hv : v.entries? = some entries)
      (ps : List (Member × Value × Value))
      (hm : List.Sublist (ps.map Prod.fst) (types.members s))
      (hp : entries.Perm (ps.map fun p => (.text p.1.name, p.2.1)))
      (h : ∀ p ∈ ps, SameShape types p.1.type p.2.1 p.2.2) :
      SameShape types (.user name) v (.object (ps.map fun p => (.text p.1.name, p.2.2)))

namespace Validate

variable {types : Types}

/-! ## What is kept of keys -/

theorem Reads.keyOf_eq_keptKey {ty : TypeRef} {attr : Option Attributes} {k : Key} {w : Value}
    (h : Reads types (.site ty attr) (.ofKey k) w)
    (hk : Site.isKeyType types (types.effective ty) = true) : keyOf w = keptKey attr k := by
  rw [keptKey]
  rcases h.key hk with ⟨rfl, ha⟩ | ⟨s, rfl, hs⟩
  · have hnull := h.toText_keyOf hk
    cases k with
    | null => simp [keyOf]
    | text t => simp [keyOf, ha, show t = "null" from hnull.symm]
  · cases k with
    | null => cases hs
    | text t =>
      obtain rfl := Value.string.inj hs
      refine (if_neg ?_).symm
      rintro ⟨ha, hnull⟩
      obtain rfl := Key.text.inj hnull
      cases h with
      | value _ ht _ _ _ => exact ht ⟨ha, rfl⟩

/-! ## Dicts and structs -/

theorem sameShape_dict {value : TypeRef} {attr keyAttr : Option Attributes} {key : Option TypeRef}
    {v : Value} {ps : List ((Key × Value) × Value × Value)}
    (hv : v.entries? = some (ps.map Prod.fst))
    (hn : (Entries.keys (keyed (ps.map Prod.snd))).Nodup)
    (hk : ∀ p ∈ ps, keyOf p.2.1 = keptKey keyAttr p.1.1)
    (h : ∀ p ∈ ps, types.SameShape value p.1.2 p.2.2) :
    types.SameShape (.dict value attr key keyAttr) v
      (.object (Entries.ofList (keyed (ps.map Prod.snd)))) := by
  have hkeyed : keyed (ps.map Prod.snd) = ps.map fun p => (keptKey keyAttr p.1.1, p.2.2) := by
    rw [keyed, List.map_map]
    refine List.map_congr_left ?_
    intro p hp
    exact congrArg (·, p.2.2) (hk p hp)
  rw [Entries.ofList_eq_self hn, hkeyed]
  rw [hkeyed, Entries.keys, List.map_map] at hn
  have hshape : types.SameShape (.dict value attr key keyAttr) v _ :=
    .dict (ps.map fun p => (p.1.1, p.1.2, p.2.2)) (by rwa [List.map_map]) (by rwa [List.map_map])
      (by
        rw [List.forall_mem_map]
        exact h)
  rwa [List.map_map] at hshape

theorem sameShape_struct {name : String} {s : Struct} {v : Value} {entries : List (Key × Value)}
    {ws : List Value} (hd : types.get? name = some (.struct s)) (hv : v.entries? = some entries)
    (hm : ((types.members s).map Member.name).Nodup) (hn : (Entries.keys entries).Nodup)
    (hk : ∀ k ∈ Entries.keys entries, ∃ m ∈ types.members s, k = .text m.name)
    (hl : (present (types.members s) entries).length = ws.length)
    (h : ∀ {p w}, (p, w) ∈ (present (types.members s) entries).zip ws →
      types.SameShape p.1.type p.2 w) :
    types.SameShape (.user name) v
      (.object (Entries.ofList (named ((present (types.members s) entries).map Prod.fst) ws))) := by
  have hperm := perm_present hm hn hk
  have hsub := sublist_present (types.members s) entries
  rw [ofList_named (by rwa [List.length_map]) (nodup_present hm entries)]
  obtain ⟨ps, hpresent, rfl⟩ := exists_unzip hl
  rw [hpresent, List.map_map] at hperm hsub
  rw [hpresent] at h ⊢
  have hshape : types.SameShape (.user name) v _ :=
    .struct hd hv (ps.map fun p => (p.1.1, p.1.2, p.2)) (by rwa [List.map_map])
      (by rwa [List.map_map])
      (by
        rw [List.forall_mem_map]
        intro p hp
        exact h (mem_zip_of_mem hp))
  rw [List.map_map, named_map]
  rwa [List.map_map] at hshape

/-! ## Values -/

theorem Reads.sameShape (hs : types.Sound) {p : Place} {v w : Value} (h : Reads types p v w)
    (hk : KeysSound types p.ty) (hv : v.Throughout Writable) : types.SameShape p.ty v w := by
  induction h with
  | @null ty attr v _ hnull =>
    refine .scalar ?_ rfl
    rcases hnull with hnull | hnull
    · rw [Value.isNull_iff.1 hnull]
      rfl
    · rw [Value.isNullText_iff.1 hnull]
      rfl
  | value _ _ _ _ _ ih => exact ih hk hv
  | typedef hd _ _ ih => exact .typedef hd (ih (hs.typedefKeys hd) hv)
  | @builtin b v w h =>
    by_cases hb : b.Textual
    · have hholds := Builtin.holds_of_convert? h
      exact .scalar (Builtin.isContainer_of_convert? hb h) (Builtin.isContainer_of_holds hb hholds)
    · rw [Builtin.convert?_of_not_textual hb] at h
      obtain rfl := Option.some.inj h
      exact .whole hb v
  | array hi hl _ ih =>
    have hitems := hv.items? hi
    obtain ⟨ps, rfl, rfl⟩ := exists_unzip hl
    refine .array ps hi ?_
    intro p hp
    exact ih (mem_zip_of_mem hp) hk (hitems _ (List.mem_map_of_mem hp))
  | dict hi hl hkr _ _ ih =>
    have hkt := isKeyType_of_keysSound hk
    have hn := Value.nodup_texts_entries? hv hi
    rw [← texts_keyed hl hkt hkr] at hn
    have hentries := hv.entries? hi
    obtain ⟨ps, rfl, rfl⟩ := exists_unzip hl
    refine sameShape_dict hi (Value.nodup_keys_of_texts hn) ?_ ?_
    · intro p hp
      exact (hkr (mem_zip_of_mem hp)).keyOf_eq_keptKey hkt
    · intro p hp
      exact ih (mem_zip_of_mem hp) (keysSound_value hk) (hentries _ (List.mem_map_of_mem hp))
  | enum _ _ => exact .scalar rfl rfl
  | struct hd hi _ hkn _ hl _ ih =>
    have hn := Value.nodup_keys_of_texts (Value.nodup_texts_entries? hv hi)
    refine sameShape_struct hd hi (hs.nodup hd) hn hkn hl ?_
    intro p w hm
    obtain ⟨hmem, hget⟩ := mem_present.1 (List.of_mem_zip hm).1
    exact ih hm (hs.memberKeys hd hmem) (hv.entries? hi _ (Entries.mem_of_get? hget))

end Validate

/-- What is validated has the shape of the document.  The document with its objects in another
order is validated too, as the same up to the order of what keeps its order. -/
theorem sameShape_and_shuffled_of_validateAs {types : Types} {name : String} {j : Json} {w : Value}
    (hl : types.lint = []) (hj : j.Valid) (h : types.validateAs name (.ofJson j) = .ok w) :
    types.SameShape (.user name) (.ofJson j) w
      ∧ ∀ v', Rearranged v' (.ofJson j) →
        ∃ w', types.validateAs name v' = .ok w' ∧ types.Shuffled (.user name) w' w := by
  obtain ⟨hc, hr⟩ := Types.validateAs_eq_ok_iff.1 h
  have hs := Types.sound_of_lint hl
  have hv := (Value.plain_ofJson hj).imp fun _ => Value.Plain.writable
  refine ⟨hr.sameShape hs trivial hv, ?_⟩
  intro v' hv'
  obtain ⟨w', hw', hshuffled⟩ := hr.shuffle hs trivial hv hv'
  exact ⟨w', Types.validateAs_eq_ok_iff.2 ⟨hc, hw'⟩, hshuffled⟩

/-! ## Sample definitions -/

/-- A struct with values that are taken as they are and with a key that may be null. -/
def Struct.page : Struct where
  name := "Page"
  members := some
    [{ name := "body", type := .builtin .any },
      { name := "marks"
        type := .dict (.array (.builtin .int) none) none none (some { nullable := true }) }]

def Types.pages : Types := .ofList [("Page", .struct Struct.page)]

theorem Types.lint_pages : pages.lint = [] := by decide +kernel

def Json.page : Json :=
  .object
    [("marks", .object [("null", .array [.string "7"]), ("low", .string "")]),
      ("body", .object [("b", .null), ("a", .string "null")])]

theorem Json.valid_page : page.Valid := by
  refine .object (by decide) ?_
  simp only [List.forall_mem_cons, List.not_mem_nil, false_imp_iff, implies_true, and_true]
  refine ⟨.object (by decide) ?_, .object (by decide) ?_⟩
  · simp only [List.forall_mem_cons, List.not_mem_nil, false_imp_iff, implies_true, and_true]
    exact ⟨.array (by decide) (by simpa using .string _), .string _⟩
  · simp only [List.forall_mem_cons, List.not_mem_nil, false_imp_iff, implies_true, and_true]
    exact ⟨.null, .string _⟩

def Value.pageRead : Value :=
  .object
    [(.text "body", .object [(.text "b", .null), (.text "a", .string "null")]),
      (.text "marks", .object [(.null, .array [.int 7]), (.text "low", .array [])])]

/-- The document with the members of all its objects the other way round. -/
def Value.pageTurned : Value :=
  .object
    [(.text "body", .object [(.text "a", .string "null"), (.text "b", .null)]),
      (.text "marks", .object [(.text "low", .string ""), (.text "null", .array [.string "7"])])]

theorem rearranged_pageTurned : Rearranged Value.pageTurned (.ofJson Json.page) := by
  have hmarks := Rearranged.object
    [(.text "null", .array [.string "7"], .array [.string "7"]),
      (.text "low", .string "", .string "")]
    (.swap _ _ []) (by simpa using ⟨.refl _, .refl _⟩)
  have hbody := Rearranged.object
    [(.text "b", .null, .null), (.text "a", .string "null", .string "null")]
    (.swap _ _ []) (by simpa using ⟨.refl _, .refl _⟩)
  exact .object [(.text "marks", _, _), (.text "body", _, _)] (.swap _ _ [])
    (by simpa using ⟨hmarks, hbody⟩)

theorem validateAs_page :
    Types.pages.validateAs "Page" (.ofJson Json.page) = .ok Value.pageRead := by
  with_unfolding_all rfl

theorem sameShape_and_shuffled_page :
    Types.pages.lint = [] ∧ Json.page.Valid
      ∧ Types.pages.validateAs "Page" (.ofJson Json.page) = .ok Value.pageRead
      ∧ Types.pages.SameShape (.user "Page") (.ofJson Json.page) Value.pageRead
      ∧ Rearranged Value.pageTurned (.ofJson Json.page)
      ∧ ∃ w', Types.pages.validateAs "Page" Value.pageTurned = .ok w'
        ∧ Types.pages.Shuffled (.user "Page") w' Value.pageRead := by
  obtain ⟨hshape, hturned⟩ :=
    sameShape_and_shuffled_of_validateAs Types.lint_pages Json.valid_page validateAs_page
  exact ⟨Types.lint_pages, Json.valid_page, validateAs_page, hshape, rearranged_pageTurned,
    hturned _ rearranged_pageTurned⟩

end SchemaLang
