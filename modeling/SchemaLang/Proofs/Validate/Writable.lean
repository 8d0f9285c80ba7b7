import SchemaLang.Proofs.Validate.Equivalence
import SchemaLang.Proofs.Validate.Texts

/-!
# Values from JSON and back

What is read from a plain value can be written as JSON: numbers stay finite, and the keys of a dict
stay the texts that they have been.  Only the kinds of dates, moments, identifiers and null keys are
lost, and reading what has been written brings them back.

* `Reads.writable`: what is read can be written.
* `restating_json`: what has been written restates it.
* `validateAs_ofJson_toJson`: the round trip.
-/

namespace SchemaLang

open Value (Plain Writable texts)

theorem isFinite_of_finite? {s : String} {x : Float} (h : finite? s = some x) :
    x.isFinite = true := by
  rw [finite?, Option.bind_eq_some_iff] at h
  obtain ⟨y, -, h⟩ := h
  split at h
  · next hy => exact Option.some.inj h ▸ hy
  · simp at h

theorem Builtin.writable_of_convert? {b : Builtin} {v w : Value} (hv : v.Throughout Plain)
    (h : b.convert? v = some w) : w.Throughout Writable := by
  have hw := holds_of_convert? h
  cases b with
  | any => exact Option.some.inj h ▸ hv.imp fun _ => Plain.writable
  | object => exact Option.some.inj h ▸ hv.imp fun _ => Plain.writable
  | float =>
    obtain ⟨x, rfl⟩ := hw
    refine .scalar rfl ?_
    show x.isFinite = true
    cases v <;> simp [convert?] at h
    · next n =>
      have hlow := Int64.le_toInt n
      have hhigh := Int64.toInt_lt n
      exact h ▸ Number.isFinite_ofInt (by omega) (by omega)
    · exact h ▸ hv.self
    · exact isFinite_of_finite? h
  | _ =>
    obtain ⟨x, rfl⟩ := hw
    exact .scalar rfl trivial

namespace Validate

variable {types : Types}

theorem Reads.toText_keyOf {ty : TypeRef} {attr : Option Attributes} {k : Key} {w : Value}
    (h : Reads types (.site ty attr) (.ofKey k) w)
    (hk : Site.isKeyType types (types.effective ty) = true) : (keyOf w).toText = k.toText := by
  rcases h.key hk with ⟨rfl, -⟩ | ⟨s, rfl, hs⟩
  · rcases h.isNull_or_isNullText with hn | hn
    · cases k with
      | null => rfl
      | text s => simp [Value.ofKey, Value.isNull] at hn
    · cases k with
      | null => rfl
      | text s => exact (beq_iff_eq.1 hn).symm
  · cases k with
    | null => simp [Value.ofKey] at hs
    | text t => exact (Value.string.inj hs).symm

theorem texts_keyed {ty : TypeRef} {attr : Option Attributes} {entries : List (Key × Value)}
    {pairs : List (Value × Value)} (hl : entries.length = pairs.length)
    (hk : Site.isKeyType types (types.effective ty) = true)
    (h : ∀ {e p}, (e, p) ∈ entries.zip pairs → Reads types (.site ty attr) (.ofKey e.1) p.1) :
    texts (keyed pairs) = texts entries := by
  obtain ⟨ps, rfl, rfl⟩ := exists_unzip hl
  rw [texts, texts, keyed, List.map_map, List.map_map, List.map_map]
  refine List.map_congr_left ?_
  intro p hp
  exact (h (mem_zip_of_mem hp)).toText_keyOf hk

theorem texts_named {members : List Member} {ws : List Value} (hl : members.length = ws.length) :
    texts (named members ws) = members.map Member.name := by
  have h : texts (named members ws) = (Entries.keys (named members ws)).map Key.toText := by
    rw [texts, Entries.keys, List.map_map]
    rfl
  rw [h, keys_named hl, List.map_map]
  rfl

theorem Reads.writable (hs : types.Sound) {p : Place} {v w : Value} (h : Reads types p v w)
    (hk : KeysSound types p.ty) (hv : v.Throughout Plain) : w.Throughout Writable := by
  induction h with
  | null _ _ => exact .scalar rfl trivial
  | value _ _ _ _ _ ih => exact ih hk hv
  | typedef hd _ _ ih => exact ih (hs.typedefKeys hd) hv
  | builtin h => exact Builtin.writable_of_convert? hv h
  | @array element attr v items ws hi hl _ ih =>
    refine .array ?_ fun w hw => ?_
    · show ws.length < _
      exact hl ▸ Value.length_items?_lt (hv.imp fun _ => Plain.writable) hi
    · obtain ⟨a, ha⟩ := exists_mem_zip hl hw
      exact ih ha hk (hv.items? hi a (List.of_mem_zip ha).1)
  | @dict value attr key keyAttr v entries pairs hi hl hkr _ _ ih =>
    refine .object ?_ fun q hq => ?_
    · have hn := Value.nodup_texts_entries? (hv.imp fun _ => Plain.writable) hi
      rw [← texts_keyed hl (isKeyType_of_keysSound hk) hkr] at hn
      rw [Entries.ofList_eq_self (Value.nodup_keys_of_texts hn)]
      exact hn
    · obtain ⟨e, p, hp, rfl⟩ := exists_of_mem_keyed hl hq
      exact ih hp (keysSound_value hk) (hv.entries? hi e (List.of_mem_zip hp).1)
  | enum _ _ => exact .scalar rfl trivial
  | @struct name s v entries ws hd hi _ _ _ hl _ ih =>
    have hlm : ((present (types.members s) entries).map Prod.fst).length = ws.length := by
      rw [List.length_map, hl]
    have hn := nodup_present (hs.nodup hd) entries
    rw [ofList_named hlm hn]
    refine .object ?_ fun q hq => ?_
    · show (texts _).Nodup
      rwa [texts_named hlm]
    · obtain ⟨⟨m, w⟩, hmw, rfl⟩ := List.mem_map.1 hq
      obtain ⟨a, ha⟩ := exists_of_mem_zip_map_fst hmw
      have hp := mem_present.1 (List.of_mem_zip ha).1
      exact ih ha (hs.memberKeys hd hp.1) (hv.entries? hi _ (Entries.mem_of_get? hp.2))

/-! ## There and back -/

theorem ofJson_toJson_leaf {b : Builtin} {v w : Value} (hv : v.Throughout Plain)
    (h : b.convert? v = some w) (hw : w.Throughout Writable) :
    b.convert? (.ofJson w.toJson) = some w := by
  have hh := Builtin.holds_of_convert? h
  have ht : b.Textual → b.convert? (.string w.bareText) = some w := fun hb =>
    Builtin.convert?_bareText hb hh hw.self
  cases b with
  | any | object =>
    cases h
    rw [Value.ofJson_toJson hv]
    rfl
  | bool =>
    obtain ⟨b, rfl⟩ := hh
    rfl
  | int =>
    obtain ⟨n, rfl⟩ := hh
    rw [Value.ofJson_toJson_int]
    rfl
  | float =>
    obtain ⟨x, rfl⟩ := hh
    rw [Value.ofJson_toJson_float hw.self]
    rfl
  | string | date | datetime | uuid =>
    -- JSON has a text for them, their bare text.
    obtain ⟨x, rfl⟩ := hh
    exact ht (by decide)

/-- What comes back from JSON restates what has been written. -/
theorem restating_json : Restating (fun v => v.Throughout Plain)
    (fun u w => u = .ofJson w.toJson ∧ w.Throughout Writable) (fun _ => True) where
  items hv hi := hv.items? hi
  entries hv he := hv.entries? he
  null := by
    rintro u ⟨rfl, -⟩
    exact .inl rfl
  string := by
    rintro u s ⟨rfl, -⟩
    rfl
  array := by
    rintro u ws ⟨rfl, hw⟩
    refine ⟨_, by rw [Value.ofJson_toJson_array]; rfl, ?_⟩
    rw [List.forall₂_map_left_iff, List.forall₂_same]
    exact fun w hm => ⟨rfl, hw.item w hm⟩
  object := by
    rintro u entries ⟨rfl, hw⟩
    refine ⟨_, by rw [Value.ofJson_toJson_object hw.self]; rfl, ?_⟩
    rw [List.forall₂_map_left_iff, List.forall₂_same]
    rintro ⟨k, w⟩ hm
    refine ⟨?_, rfl, hw.entry _ hm⟩
    cases k with
    | null => exact .inr ⟨rfl, rfl⟩
    | text s => exact .inl rfl
  leaf := by
    rintro b v u w - hv h ⟨rfl, hw⟩
    exact ofJson_toJson_leaf hv h hw

end Validate

/-- The document that `Value.sample` comes from. -/
def Json.sample : Json :=
  .object
    [("counts", .object [("red", .string " 5"), ("null", .string "null")]),
      ("notes", .string ""), ("day", .string "2024-2-29")]

theorem Json.valid_sample : sample.Valid := by
  refine .object (by decide) ?_
  simp only [List.forall_mem_cons, List.not_mem_nil, false_imp_iff, implies_true, and_true]
  refine ⟨.object (by decide) ?_, .string _, .string _⟩
  simp only [List.forall_mem_cons, List.not_mem_nil, false_imp_iff, implies_true, and_true]
  exact ⟨.string _, .string _⟩

theorem validateAs_ofJson_toJson {types : Types} {name : String} {j : Json} {w : Value}
    (hl : types.lint = []) (hj : j.Valid) (h : types.validateAs name (.ofJson j) = .ok w) :
    types.validateAs name (.ofJson w.toJson) = .ok w := by
  obtain ⟨hc, hr⟩ := Types.validateAs_eq_ok_iff.1 h
  have hs := Types.sound_of_lint hl
  have hv := Value.plain_ofJson hj
  refine Types.validateAs_eq_ok_iff.2 ⟨hc, ?_⟩
  exact hr.restate Validate.restating_json hs trivial (fun _ _ => trivial) hv
    ⟨rfl, hr.writable hs trivial hv⟩

theorem validateAs_ofJson_toJson_sample :
    Types.sample.lint = []
      ∧ Json.sample.Valid
      ∧ Types.sample.validateAs "Tally" (.ofJson Json.sample) = .ok Value.sampleRead
      ∧ Types.sample.validateAs "Tally" (.ofJson Value.sampleRead.toJson)
        = .ok Value.sampleRead :=
  ⟨Types.lint_sample, Json.valid_sample, validateAs_sample,
    validateAs_ofJson_toJson Types.lint_sample Json.valid_sample validateAs_sample⟩

end SchemaLang
