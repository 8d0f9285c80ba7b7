import SchemaLang.Model.Encode
import SchemaLang.Proofs.Validate.Equivalence
import SchemaLang.Proofs.Value.Json

/-!
# JSON that is read and written again

`Recasts types p j j'` says that what JSON `j` holds is read at a place `p`, and that `j'` is
written for it.

* `recasts_struct`: an object with the members of a struct is written in the order of the struct.
* `recasts_union`, `recasts_record`: objects whose members are written as they are.
* `exists_reads_dict`: a dict keeps the names of its entries.
-/

namespace SchemaLang

namespace Validate

def Recasts (types : Types) (p : Place) (j j' : Json) : Prop :=
  ∃ w, Reads types p (.ofJson j) w ∧ w.toJson = j'

variable {types : Types}

/-! ## Sites -/

theorem ofJson_isNull {j : Json} (h : j ≠ .null) : (Value.ofJson j).isNull = false := by
  cases j with
  | null => exact absurd rfl h
  | integer n =>
    rw [Value.ofJson, Value.ofInteger]
    split <;> rfl
  | _ => rfl

/-- Where null is not allowed everything is read that is not null and meets the bounds. -/
theorem Recasts.bounded {ty : TypeRef} {attr : Option Attributes} {j j' : Json}
    (h : Recasts types (.type ty) j j') (hj : j ≠ .null) (hj' : j' ≠ .null)
    (ha : allowsNull attr = false) (hb : ∀ w, w.toJson = j' → brokenBound? attr w = none) :
    Recasts types (.site ty attr) j j' := by
  obtain ⟨w, hr, rfl⟩ := h
  refine ⟨w, .value (ofJson_isNull hj) (by simp [ha]) hr ?_ (hb w rfl), rfl⟩
  cases w with
  | null => exact absurd rfl hj'
  | _ => rfl

theorem Recasts.plain {ty : TypeRef} {j j' : Json} (h : Recasts types (.type ty) j j')
    (hj : j ≠ .null) (hj' : j' ≠ .null) : Recasts types (.site ty none) j j' :=
  h.bounded hj hj' rfl fun _ _ => rfl

theorem recasts_string (s : String) :
    Recasts types (.site (.builtin .string) none) (.string s) (.string s) :=
  .plain ⟨.string s, .builtin rfl, rfl⟩ (by simp) (by simp)

theorem recasts_bool (b : Bool) :
    Recasts types (.site (.builtin .bool) none) (.bool b) (.bool b) :=
  .plain ⟨.bool b, .builtin rfl, rfl⟩ (by simp) (by simp)

theorem recasts_float {x : Float} (h : x.isFinite = true) :
    Recasts types (.site (.builtin .float) none) (.float x) (.float x) := by
  refine .plain ⟨.float x, .builtin rfl, ?_⟩ (by simp) (by simp)
  simp [Value.toJson, Json.ofFloat, h]

/-- A count that fits into 64 bits with a sign. -/
theorem recasts_count {n : Nat} (h : n < 2 ^ 63) :
    Recasts types (.type (.builtin .int)) (.integer n) (.integer n) := by
  have hi : (Int64.ofInt n).toInt = n :=
    Int64.toInt_ofInt_of_le (by omega) (by omega)
  have hv : Value.ofJson (.integer n) = .int (Int64.ofInt n) := by
    have h := Value.ofJson_toJson_int (Int64.ofInt n)
    rwa [Value.toJson, hi] at h
  refine ⟨.int (Int64.ofInt n), ?_, ?_⟩
  · rw [hv]
    exact .builtin rfl
  · rw [Value.toJson, hi]

theorem recasts_array {element : TypeRef} {attr : Option Attributes} {js js' : List Json}
    (h : List.Forall₂ (Recasts types (.site element attr)) js js') :
    Recasts types (.type (.array element attr)) (.array js) (.array js') := by
  obtain ⟨ws, hws, rfl⟩ : ∃ ws, List.Forall₂ (Reads types (.site element attr))
      (js.map Value.ofJson) ws ∧ ws.map Value.toJson = js' := by
    induction h with
    | nil => exact ⟨[], .nil, rfl⟩
    | cons hj _ ih =>
      obtain ⟨w, hw, rfl⟩ := hj
      obtain ⟨ws, hws, rfl⟩ := ih
      exact ⟨w :: ws, .cons hw hws, rfl⟩
  refine ⟨.array ws, reads_array_iff.2 ⟨_, ?_, ws, hws, rfl⟩, ?_⟩
  · rw [Value.ofJson, Value.ofJsonItems_eq_map]
    rfl
  · rw [Value.toJson, Value.toJsonItems_eq_map]

theorem recasts_map {α : Type} {element : TypeRef} {attr : Option Attributes} {l : List α}
    {f : α → Json} (h : ∀ a ∈ l, Recasts types (.site element attr) (f a) (f a)) :
    Recasts types (.type (.array element attr)) (.array (l.map f)) (.array (l.map f)) := by
  apply recasts_array
  rw [List.forall₂_map_left_iff, List.forall₂_map_right_iff, List.forall₂_same]
  exact h

/-! ## Structs -/

/-- The members of a struct, each with what an object has there and what is written for it. -/
abbrev Slots := List (Member × Option (Json × Json))

namespace Slots

def given (slots : Slots) : List (String × Json) :=
  slots.filterMap fun p => p.2.map fun q => (p.1.name, q.1)

def written (slots : Slots) : List (String × Json) :=
  slots.filterMap fun p => p.2.map fun q => (p.1.name, q.2)

theorem keys_given_sublist (slots : Slots) :
    List.Sublist (Entries.keys slots.given) (slots.map fun p => p.1.name) := by
  induction slots with
  | nil => exact List.Sublist.refl _
  | cons p slots ih =>
    rw [given, List.filterMap_cons]
    cases p.2 with
    | none => exact ih.cons _
    | some q => exact ih.cons_cons _

theorem get?_given {slots : Slots} (hn : (slots.map fun p => p.1.name).Nodup)
    {p : Member × Option (Json × Json)} (hp : p ∈ slots) :
    Entries.get? p.1.name slots.given = p.2.map Prod.fst := by
  induction slots with
  | nil => simp at hp
  | cons p' slots ih =>
    obtain ⟨hnm, hn⟩ := List.nodup_cons.1 hn
    have hnone : Entries.get? p'.1.name (given slots) = none :=
      Entries.get?_eq_none_iff.2 fun h => hnm ((keys_given_sublist slots).subset h)
    rw [given, List.filterMap_cons]
    rcases List.mem_cons.1 hp with rfl | hp
    · cases hq : p.2 with
      | none => exact hnone
      | some q => exact if_pos rfl
    · have hne : p'.1.name ≠ p.1.name := fun he => hnm (List.mem_map.2 ⟨p, hp, he.symm⟩)
      cases p'.2 with
      | none => exact ih hn hp
      | some q => exact (if_neg hne).trans (ih hn hp)

end Slots

/-- The values read for the members that are there, and the JSON written for them. -/
theorem exists_readings {slots : Slots}
    (h : ∀ p ∈ slots, ∀ q, p.2 = some q → Recasts types (.site p.1.type p.1.attr) q.1 q.2) :
    ∃ ws, List.Forall₂ (fun p w => Reads types (.site p.1.type p.1.attr) p.2 w)
        (slots.filterMap fun p => p.2.map fun q => (p.1, Value.ofJson q.1)) ws
      ∧ (named ((slots.filterMap fun p => p.2.map fun q => (p.1, Value.ofJson q.1)).map Prod.fst)
          ws).map (fun e => (e.1.toText, e.2.toJson)) = slots.written := by
  induction slots with
  | nil => exact ⟨[], .nil, rfl⟩
  | cons p slots ih =>
    obtain ⟨hp, hs⟩ := List.forall_mem_cons.1 h
    obtain ⟨ws, hws, he⟩ := ih hs
    obtain ⟨m, o⟩ := p
    cases o with
    | none => exact ⟨ws, hws, he⟩
    | some q =>
      obtain ⟨w, hw, hq⟩ := hp q rfl
      refine ⟨w :: ws, .cons hw hws, ?_⟩
      show (m.name, w.toJson) :: _ = (m.name, q.2) :: Slots.written slots
      rw [hq, ← he]
      rfl

theorem get?_ofJsonMembers (k : String) (fields : List (String × Json)) :
    Entries.get? (.text k) (Value.ofJsonMembers fields)
      = (Entries.get? k fields).map Value.ofJson := by
  induction fields with
  | nil => rfl
  | cons f fields ih =>
    obtain ⟨k', j⟩ := f
    by_cases h : k' = k
    · simp [Value.ofJsonMembers, Entries.get?, h]
    · simp [Value.ofJsonMembers, Entries.get?, h, ih]

theorem keys_ofJsonMembers (fields : List (String × Json)) :
    Entries.keys (Value.ofJsonMembers fields) = (Entries.keys fields).map .text := by
  rw [Value.ofJsonMembers_eq_map, Entries.keys, Entries.keys, List.map_map, List.map_map]
  rfl

/-- The members of an object may come in any order. -/
theorem recasts_struct {name : String} {s : Struct} {slots : Slots}
    {fields : List (String × Json)} (hd : types.get? name = some (.struct s))
    (hm : types.members s = slots.map Prod.fst) (hn : (slots.map fun p => p.1.name).Nodup)
    (hp : fields.Perm slots.given) (hu : s.union = true → fields.length = 1)
    (ho : ∀ p ∈ slots, p.2 = none → p.1.optional = true ∨ s.union = true)
    (h : ∀ p ∈ slots, ∀ q, p.2 = some q → Recasts types (.site p.1.type p.1.attr) q.1 q.2) :
    Recasts types (.type (.user name)) (.object fields) (.object slots.written) := by
  have hget : ∀ p ∈ slots, Entries.get? (.text p.1.name) (Value.ofJsonMembers fields)
      = p.2.map fun q => Value.ofJson q.1 := by
    intro p hps
    rw [get?_ofJsonMembers, Entries.get?_of_perm hp (hn.sublist slots.keys_given_sublist),
      Slots.get?_given hn hps, Option.map_map]
    rfl
  have hpresent : present (types.members s) (Value.ofJsonMembers fields)
      = slots.filterMap fun p => p.2.map fun q => (p.1, Value.ofJson q.1) := by
    rw [hm, present, List.filterMap_map]
    refine List.filterMap_congr fun p hps => ?_
    rw [Function.comp_apply, hget p hps, Option.map_map]
    rfl
  have hnames : ((types.members s).map Member.name).Nodup := by
    rw [hm, List.map_map]
    exact hn
  obtain ⟨ws, hws, he⟩ := exists_readings h
  rw [← hpresent] at hws he
  have hl : ((present (types.members s) (Value.ofJsonMembers fields)).map Prod.fst).length
      = ws.length := by rw [List.length_map, hws.length_eq]
  refine ⟨_, (reads_struct_iff hd).2 ⟨_, ?_, ?_, ?_, ?_, ws, hws, rfl⟩, ?_⟩
  · rw [Value.ofJson]
    rfl
  · intro hut
    rw [Value.ofJsonMembers_eq_map, List.length_map]
    exact hu hut
  · intro k hk
    rw [keys_ofJsonMembers, List.mem_map] at hk
    obtain ⟨k, hk, rfl⟩ := hk
    have hks := slots.keys_given_sublist.subset ((hp.map Prod.fst).subset hk)
    obtain ⟨p, hps, rfl⟩ := List.mem_map.1 hks
    exact ⟨p.1, hm ▸ List.mem_map_of_mem (f := Prod.fst) hps, rfl⟩
  · intro m hms hk
    rw [hm] at hms
    obtain ⟨p, hps, rfl⟩ := List.mem_map.1 hms
    refine ho p hps ?_
    have hnone := Entries.get?_eq_none_iff.2 hk
    rw [hget p hps] at hnone
    simpa using hnone
  · have hnn := nodup_present hnames (Value.ofJsonMembers fields)
    have htexts : (Value.texts (named ((present (types.members s)
        (Value.ofJsonMembers fields)).map Prod.fst) ws)).Nodup := by
      have htk : ∀ entries : List (Key × Value),
          Value.texts entries = (Entries.keys entries).map Key.toText := fun entries => by
        rw [Value.texts, Entries.keys, List.map_map]
        rfl
      rw [htk, keys_named hl, List.map_map]
      exact hnn
    rw [ofList_named hl hnn, Value.toJson_object htexts, he]

/-- An object with the one member of a union that is set. -/
theorem recasts_union {name : String} {s : Struct} {members : List Member} {m : Member}
    {j j' : Json} (hd : types.get? name = some (.struct s)) (hu : s.union = true)
    (hm : types.members s = members) (hn : (members.map Member.name).Nodup) (hmm : m ∈ members)
    (h : Recasts types (.site m.type m.attr) j j') :
    Recasts types (.type (.user name)) (.object [(m.name, j)]) (.object [(m.name, j')]) := by
  obtain ⟨before, after, rfl⟩ := List.append_of_mem hmm
  let absent : List Member → Slots := fun l => l.map fun m => (m, none)
  let slots : Slots := absent before ++ (m, some (j, j')) :: absent after
  have hnone : ∀ (f : Json × Json → Json) (l : List Member),
      (absent l).filterMap (fun p => p.2.map fun q => (p.1.name, f q)) = [] := by
    intro f l
    rw [List.filterMap_map]
    exact List.filterMap_eq_nil_iff.2 fun _ _ => rfl
  have hone : ∀ f : Json × Json → Json,
      slots.filterMap (fun p => p.2.map fun q => (p.1.name, f q)) = [(m.name, f (j, j'))] := by
    intro f
    rw [List.filterMap_append, List.filterMap_cons, hnone, hnone]
    rfl
  have hfst : slots.map Prod.fst = before ++ m :: after := by
    have habsent : ∀ l, (absent l).map Prod.fst = l := fun l => by
      rw [List.map_map]
      exact List.map_id l
    rw [List.map_append, List.map_cons, habsent, habsent]
  have hw : Slots.written slots = [(m.name, j')] := by rw [Slots.written, hone]
  rw [← hw]
  refine recasts_struct hd (hm.trans hfst.symm) ?_ ?_ (fun _ => rfl) (fun _ _ _ => .inr hu) ?_
  · rw [← hfst, List.map_map] at hn
    exact hn
  · rw [Slots.given, hone]
  · intro p hp q hq
    rcases List.mem_append.1 hp with hp | hp
    · obtain ⟨_, -, rfl⟩ := List.mem_map.1 hp
      simp at hq
    · rcases List.mem_cons.1 hp with rfl | hp
      · rw [← Option.some.inj hq]
        exact h
      · obtain ⟨_, -, rfl⟩ := List.mem_map.1 hp
        simp at hq

/-- What an object has under the names of members, in their order. -/
def fieldsOf (members : List Member) (values : List (Option Json)) : List (String × Json) :=
  (members.zip values).flatMap fun p => Encode.given p.1.name id p.2

/-- What an object may have for a member of a struct, and is written as it is. -/
structure Fits (types : Types) (m : Member) (value : Option Json) : Prop where
  optional : value = none → m.optional = true
  recasts : ∀ j, value = some j → Recasts types (.site m.type m.attr) j j

/-- Members that are written as they are. -/
def Slots.same (members : List Member) (values : List (Option Json)) : Slots :=
  (members.zip values).map fun p => (p.1, p.2.map fun j => (j, j))

theorem Slots.given_same (members : List Member) (values : List (Option Json)) :
    (same members values).given = fieldsOf members values := by
  rw [same, fieldsOf]
  induction members.zip values with
  | nil => rfl
  | cons p l ih =>
    rw [List.flatMap_cons, ← ih]
    obtain ⟨m, o⟩ := p
    cases o <;> rfl

theorem Slots.written_same (members : List Member) (values : List (Option Json)) :
    (same members values).written = fieldsOf members values := by
  rw [← given_same]
  refine List.filterMap_congr fun p hp => ?_
  obtain ⟨q, -, rfl⟩ := List.mem_map.1 hp
  cases q.2 <;> rfl

/-- An object of which every member is written as it is. -/
theorem recasts_record {name : String} {s : Struct} {members : List Member}
    {values : List (Option Json)} {fields : List (String × Json)}
    (hd : types.get? name = some (.struct s)) (hm : types.members s = members)
    (hn : (members.map Member.name).Nodup) (hu : s.union = false)
    (hp : fields.Perm (fieldsOf members values)) (h : List.Forall₂ (Fits types) members values) :
    Recasts types (.type (.user name)) (.object fields) (.object (fieldsOf members values)) := by
  have hl := h.length_eq
  have hz : (members.zip values).map Prod.fst = members := List.map_fst_zip (Nat.le_of_eq hl)
  have hfits : ∀ p ∈ members.zip values, Fits types p.1 p.2 :=
    fun p hp => (List.forall₂_iff_zip.1 h).2 hp
  rw [← Slots.written_same]
  refine recasts_struct hd ?_ ?_ ?_ (by simp [hu]) ?_ ?_
  · rw [hm, Slots.same, List.map_map]
    exact hz.symm
  · rw [← hz, List.map_map] at hn
    rw [Slots.same, List.map_map]
    exact hn
  · rwa [Slots.given_same]
  · intro p hp ho
    obtain ⟨q, hq, rfl⟩ := List.mem_map.1 hp
    exact .inl ((hfits q hq).optional (by simpa using ho))
  · intro p hp q hq
    obtain ⟨p, hpl, rfl⟩ := List.mem_map.1 hp
    obtain ⟨j, hj, rfl⟩ := Option.map_eq_some_iff.1 hq
    exact (hfits p hpl).recasts j hj

/-! ## Dicts -/

theorem exists_pairs {value : TypeRef} {attr : Option Attributes}
    {members members' : List (String × Json)}
    (h : List.Forall₂ (fun m m' => m.1 = m'.1 ∧ Recasts types (.site value attr) m.2 m'.2) members
      members') :
    ∃ pairs, List.Forall₂ (fun e p => Reads types (.site (.builtin .string) none) (.ofKey e.1) p.1
          ∧ Reads types (.site value attr) e.2 p.2) (Value.ofJsonMembers members) pairs
      ∧ (keyed pairs).map (fun e => (e.1.toText, e.2.toJson)) = members' := by
  induction h with
  | nil => exact ⟨[], .nil, rfl⟩
  | @cons m m' _ members' hm _ ih =>
    obtain ⟨hname, w, hw, hj⟩ := hm
    obtain ⟨pairs, hp, he⟩ := ih
    have hkey : Reads types (.site (.builtin .string) none) (.string m.1) (.string m.1) :=
      .value rfl (by simp [allowsNull]) (.builtin rfl) rfl rfl
    refine ⟨(.string m.1, w) :: pairs, .cons ⟨hkey, hw⟩ hp, ?_⟩
    show (m.1, w.toJson) :: (keyed pairs).map _ = m' :: members'
    rw [he, hname, hj]

/-- A dict whose keys are texts keeps them. -/
theorem exists_reads_dict {value : TypeRef} {attr : Option Attributes}
    {members members' : List (String × Json)} (hn : (members'.map Prod.fst).Nodup)
    (h : List.Forall₂ (fun m m' => m.1 = m'.1 ∧ Recasts types (.site value attr) m.2 m'.2) members
      members') :
    ∃ entries, Reads types (.type (.dict value attr none none)) (.ofJson (.object members))
        (.object entries)
      ∧ (Value.object entries).toJson = .object members' ∧ entries.length = members'.length := by
  obtain ⟨pairs, hp, rfl⟩ := exists_pairs h
  have htexts : (Value.texts (keyed pairs)).Nodup := by
    rw [List.map_map] at hn
    exact hn
  have hself := Entries.ofList_eq_self (Value.nodup_keys_of_texts htexts)
  refine ⟨keyed pairs, reads_dict_iff.2 ⟨_, ?_, pairs, hp, ?_⟩, ?_, ?_⟩
  · rw [Value.ofJson]
    rfl
  · rw [hself]
  · exact Value.toJson_object htexts
  · rw [List.length_map]

end Validate

end SchemaLang
