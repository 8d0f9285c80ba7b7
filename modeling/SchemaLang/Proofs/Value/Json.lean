import SchemaLang.Proofs.Calendar
import SchemaLang.Proofs.Entries
import SchemaLang.Proofs.Number.Scientific
import SchemaLang.Proofs.Uuid
import SchemaLang.Proofs.Value

/-!
# Values that JSON writes

JSON keeps the integers of 64 bits, with or without a sign, and the finite numbers, and no object
has two members of one name.  What is read from it is `Plain`, and comes back as it is.  What JSON
can write without losing more than the kinds of its texts is `Writable`.

* `plain_ofJson`: what JSON is read as.
* `ofJson_toJson`: plain values come back from JSON.
-/

namespace SchemaLang

/-- What a JSON document can hold. -/
inductive Json.Valid : Json → Prop
  | null : Valid .null
  | bool (b : Bool) : Valid (.bool b)
  | integer {n : Int} (hlow : -2 ^ 63 ≤ n) (hhigh : n < 2 ^ 64) : Valid (.integer n)
  | float {x : Float} (hx : x.isFinite = true) : Valid (.float x)
  | string (s : String) : Valid (.string s)
  | array {items : List Json} (hl : items.length < 2 ^ 63) (h : ∀ j ∈ items, Valid j) :
      Valid (.array items)
  | object {members : List (String × Json)} (hn : (members.map Prod.fst).Nodup)
      (h : ∀ m ∈ members, Valid m.2) : Valid (.object members)

namespace Value

/-- The texts of the keys of an object. -/
def texts (entries : List (Key × Value)) : List String := entries.map fun e => e.1.toText

def Plain : Value → Prop
  | .float x => x.isFinite = true
  | .date _ => False
  | .moment _ => False
  | .uuid _ => False
  | .array items => items.length < 2 ^ 63
  | .object entries => (∀ e ∈ entries, e.1 ≠ .null) ∧ (texts entries).Nodup
  | _ => True

def Writable : Value → Prop
  | .float x => x.isFinite = true
  | .array items => items.length < 2 ^ 63
  | .object entries => (texts entries).Nodup
  | _ => True

theorem Plain.writable {v : Value} (h : v.Plain) : v.Writable := by
  cases v with
  | float x => exact h
  | array items => exact h
  | object entries => exact h.2
  | _ => exact trivial

theorem nodup_keys_of_texts {entries : List (Key × Value)} (h : (texts entries).Nodup) :
    (Entries.keys entries).Nodup := by
  apply List.Nodup.of_map Key.toText
  rw [Entries.keys, List.map_map]
  exact h

theorem nodup_texts_entries? {v : Value} {entries : List (Key × Value)}
    (hv : v.Throughout Writable) (h : v.entries? = some entries) : (texts entries).Nodup := by
  rcases eq_of_entries? h with rfl | ⟨rfl, rfl⟩
  · exact hv.self
  · exact List.nodup_nil

theorem length_items?_lt {v : Value} {items : List Value} (hv : v.Throughout Writable)
    (h : v.items? = some items) : items.length < 2 ^ 63 := by
  rcases eq_of_items? h with rfl | ⟨rfl, rfl⟩
  · exact hv.self
  · decide

/-! ## Items and members -/

theorem toJsonItems_eq_map (items : List Value) : toJsonItems items = items.map toJson := by
  induction items with
  | nil => rfl
  | cons v items ih => rw [toJsonItems, ih, List.map_cons]

theorem toJsonMembers_eq_map (entries : List (Key × Value)) :
    toJsonMembers entries = entries.map fun e => (e.1.toText, e.2.toJson) := by
  induction entries with
  | nil => rfl
  | cons e entries ih => rw [toJsonMembers, ih, List.map_cons]

theorem ofJsonItems_eq_map (items : List Json) : ofJsonItems items = items.map ofJson := by
  induction items with
  | nil => rfl
  | cons j items ih => rw [ofJsonItems, ih, List.map_cons]

theorem ofJsonMembers_eq_map (members : List (String × Json)) :
    ofJsonMembers members = members.map fun m => (.text m.1, ofJson m.2) := by
  induction members with
  | nil => rfl
  | cons m members ih => rw [ofJsonMembers, ih, List.map_cons]

theorem keys_toJsonMembers (entries : List (Key × Value)) :
    Entries.keys (toJsonMembers entries) = texts entries := by
  rw [toJsonMembers_eq_map, Entries.keys, List.map_map]
  rfl

/-- Members of different names do not come in each other's way. -/
theorem toJson_object {entries : List (Key × Value)} (hn : (texts entries).Nodup) :
    (Value.object entries).toJson = .object (entries.map fun e => (e.1.toText, e.2.toJson)) := by
  rw [toJson, Entries.ofList_eq_self (by rwa [keys_toJsonMembers]), toJsonMembers_eq_map]

theorem ofJson_toJson_array (items : List Value) :
    ofJson (Value.array items).toJson = .array (items.map fun v => ofJson v.toJson) := by
  rw [toJson, ofJson, ofJsonItems_eq_map, toJsonItems_eq_map, List.map_map]
  rfl

theorem ofJson_toJson_object {entries : List (Key × Value)} (hn : (texts entries).Nodup) :
    ofJson (Value.object entries).toJson
      = .object (entries.map fun e => (.text e.1.toText, ofJson e.2.toJson)) := by
  rw [toJson_object hn, ofJson, ofJsonMembers_eq_map, List.map_map]
  rfl

/-! ## Numbers -/

theorem ofJson_toJson_int (n : Int64) : ofJson (Value.int n).toJson = .int n := by
  rw [toJson, ofJson, ofInteger, if_pos ⟨Int64.minValue_le_toInt n, Int64.toInt_le n⟩,
    Int64.ofInt_toInt]

theorem ofJson_toJson_float {x : Float} (hx : x.isFinite = true) :
    ofJson (Value.float x).toJson = .float x := by
  rw [toJson, Json.ofFloat, if_pos hx, ofJson]

theorem plain_ofInteger {n : Int} (hlow : -2 ^ 63 ≤ n) (hhigh : n < 2 ^ 64) :
    (ofInteger n).Throughout Plain := by
  rw [ofInteger]
  split
  · exact .scalar rfl trivial
  · exact .scalar rfl (Number.isFinite_ofInt (by omega) hhigh)

/-! ## There and back -/

theorem plain_ofJson {j : Json} (h : j.Valid) : (ofJson j).Throughout Plain := by
  induction h with
  | null => exact .scalar rfl trivial
  | bool b => exact .scalar rfl trivial
  | integer hlow hhigh => exact plain_ofInteger hlow hhigh
  | float hx => exact .scalar rfl hx
  | string s => exact .scalar rfl trivial
  | @array items hl _ ih =>
    rw [ofJson, ofJsonItems_eq_map]
    refine .array ?_ fun v hv => ?_
    · show (items.map ofJson).length < _
      rwa [List.length_map]
    · obtain ⟨j, hj, rfl⟩ := List.mem_map.1 hv
      exact ih j hj
  | @object members hn _ ih =>
    rw [ofJson, ofJsonMembers_eq_map]
    refine .object ⟨fun e he => ?_, ?_⟩ fun e he => ?_
    · obtain ⟨m, -, rfl⟩ := List.mem_map.1 he
      simp
    · rw [texts, List.map_map]
      exact hn
    · obtain ⟨m, hm, rfl⟩ := List.mem_map.1 he
      exact ih m hm

theorem ofJson_toJson {v : Value} (h : v.Throughout Plain) : ofJson v.toJson = v := by
  induction h with
  | @scalar v hs hp =>
    cases v with
    | int n => exact ofJson_toJson_int n
    | float x => exact ofJson_toJson_float hp
    | date d => exact hp.elim
    | moment m => exact hp.elim
    | uuid u => exact hp.elim
    | array items => simp [isContainer] at hs
    | object entries => simp [isContainer] at hs
    | _ => rfl
  | @array items _ _ ih =>
    rw [ofJson_toJson_array, List.map_congr_left ih, List.map_id']
  | @object entries hp _ ih =>
    have hm : ∀ e ∈ entries, ((.text e.1.toText, ofJson e.2.toJson) : Key × Value) = e := by
      rintro ⟨k, v⟩ he
      rw [ih _ he]
      cases k with
      | null => exact absurd rfl (hp.1 _ he)
      | text s => rfl
    rw [ofJson_toJson_object hp.2, List.map_congr_left hm, List.map_id']

end Value

end SchemaLang
