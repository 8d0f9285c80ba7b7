import SchemaLang.Proofs.Entries
import SchemaLang.Proofs.Lint
import SchemaLang.Proofs.Validate.Reads

/-!
# The keys of dicts

The key type of a dict stands for the texts or for an enum, so a key is read as null or as the text
that it is, and no key is written anew.

* `Reads.eq_of_string`: a text is read from nothing but itself.
* `Reads.key`: what is read as a key.
-/

namespace SchemaLang

namespace Validate

variable {types : Types}

theorem keyOf_ofKey (k : Key) : keyOf (.ofKey k) = k := by
  cases k <;> rfl

theorem Reads.eq_of_string {p : Place} {v : Value} {s : String} (h : Reads types p v (.string s)) :
    v = .string s := by
  generalize hw : Value.string s = w at h
  induction h with
  | null _ _ => simp at hw
  | value _ _ _ _ _ ih => exact ih hw
  | typedef _ _ _ ih => exact ih hw
  | builtin h =>
    subst hw
    exact Builtin.eq_string_of_convert? h
  | array _ _ _ => simp at hw
  | dict _ _ _ _ => simp at hw
  | enum _ _ => rfl
  | struct _ _ _ _ _ _ _ => simp at hw

theorem keysSound_of_isKeyType {ty : TypeRef}
    (h : Site.isKeyType types (types.effective ty) = true) : KeysSound types ty := by
  cases ty with
  | builtin b => exact trivial
  | user name => exact trivial
  | array element attr =>
    rw [Types.effective, Types.resolve_of_not_isTypedef rfl] at h
    simp [Site.isKeyType] at h
  | dict value attr key keyAttr =>
    rw [Types.effective, Types.resolve_of_not_isTypedef rfl] at h
    simp [Site.isKeyType] at h

theorem Reads.isNull_or_string {p : Place} {v w : Value} (h : Reads types p v w)
    (hk : Site.isKeyType types (types.effective p.ty) = true) :
    w = .null ∨ ∃ s, w = .string s := by
  induction h with
  | null _ _ => exact .inl rfl
  | value _ _ _ _ _ ih => exact ih hk
  | typedef hd hc _ ih =>
    apply ih
    rw [Place.ty, Types.effective_typedef hd hc] at hk
    exact hk
  | @builtin b v w h =>
    rw [Place.ty, Types.effective, Types.resolve_of_not_isTypedef rfl] at hk
    cases b <;> simp only [Site.isKeyType, Bool.false_eq_true] at hk
    exact .inr (Builtin.holds_of_convert? h)
  | array _ _ _ =>
    rw [Place.ty, Types.effective, Types.resolve_of_not_isTypedef rfl] at hk
    simp [Site.isKeyType] at hk
  | dict _ _ _ _ =>
    rw [Place.ty, Types.effective, Types.resolve_of_not_isTypedef rfl] at hk
    simp [Site.isKeyType] at hk
  | @enum _ _ s _ _ => exact .inr ⟨s, rfl⟩
  | struct hd _ _ _ _ _ _ =>
    rw [Place.ty, Types.effective, Types.resolve_of_not_isTypedef (isTypedef_of_struct hd)] at hk
    simp [Site.isKeyType, hd] at hk

/-- Without a key type the keys are texts. -/
theorem isKeyType_getD {key : Option TypeRef}
    (h : ∀ ty, key = some ty → Site.isKeyType types (types.effective ty) = true) :
    Site.isKeyType types (types.effective (key.getD (.builtin .string))) = true := by
  cases key with
  | none =>
    rw [Option.getD_none, Types.effective, Types.resolve_of_not_isTypedef rfl]
    rfl
  | some ty => exact h ty rfl

theorem isKeyType_of_keysSound {value : TypeRef} {attr keyAttr : Option Attributes}
    {key : Option TypeRef} (h : KeysSound types (.dict value attr key keyAttr)) :
    Site.isKeyType types (types.effective (key.getD (.builtin .string))) = true := by
  apply isKeyType_getD
  rintro ty rfl
  rw [KeysSound] at h
  exact h.1

theorem keysSound_value {value : TypeRef} {attr keyAttr : Option Attributes}
    {key : Option TypeRef} (h : KeysSound types (.dict value attr key keyAttr)) :
    KeysSound types value := by
  cases key with
  | none => exact h
  | some key => exact h.2

/-- A key is read as null where that is allowed, or else as the text that it is. -/
theorem Reads.key {ty : TypeRef} {attr : Option Attributes} {v w : Value}
    (h : Reads types (.site ty attr) v w)
    (hk : Site.isKeyType types (types.effective ty) = true) :
    (w = .null ∧ allowsNull attr = true) ∨ ∃ s, w = .string s ∧ v = .string s := by
  rcases h.isNull_or_string hk with rfl | ⟨s, rfl⟩
  · cases h with
    | null ha _ => exact .inl ⟨rfl, ha⟩
    | value _ _ _ hn _ => simp [Value.isNull] at hn
  · exact .inr ⟨s, rfl, h.eq_of_string⟩

theorem Reads.ofKey_keyOf {ty : TypeRef} {attr : Option Attributes} {v w : Value}
    (h : Reads types (.site ty attr) v w)
    (hk : Site.isKeyType types (types.effective ty) = true) : .ofKey (keyOf w) = w := by
  rcases h.key hk with ⟨rfl, -⟩ | ⟨s, rfl, -⟩
  · rfl
  · rfl

/-- The entries of a dict that has been read come from entries that they have been read from. -/
theorem exists_of_mem_keyed {entries : List (Key × Value)} {pairs : List (Value × Value)}
    {q : Key × Value} (hl : entries.length = pairs.length)
    (hq : q ∈ Entries.ofList (keyed pairs)) :
    ∃ e p, (e, p) ∈ entries.zip pairs ∧ q = (keyOf p.1, p.2) := by
  obtain ⟨p, hp, rfl⟩ := List.mem_map.1 (Entries.mem_of_mem_ofList hq)
  obtain ⟨e, hm⟩ := exists_mem_zip hl hp
  exact ⟨e, p, hm, rfl⟩

end Validate

end SchemaLang
