import SchemaLang.Proofs.Number.FloatText
import SchemaLang.Proofs.Validate.Restating
import SchemaLang.Proofs.Value.Json
import SchemaLang.Proofs.Value.Texts

/-!
# Reading values from their texts

A value of each builtin type but the two that take everything is read back from its bare text, so
that texts restate what they have been written for.

* `convert?_bareText`: scalars.
* `restating_asTexts`: values.
-/

namespace SchemaLang

open Value (Writable asTexts)

/-- What the texts of integers and of 64-bit integers are made of. -/
theorem integerText_eq (n : Int) : Json.integerText n = (toString n).toList := by
  cases n with
  | ofNat n =>
    rw [show (toString (Int.ofNat n)).toList = Nat.toDigits 10 n from Nat.toList_repr]
    rfl
  | negSucc n =>
    show _ = ("-" ++ Nat.repr (n + 1)).toList
    rw [String.toList_append, Nat.toList_repr, Json.integerText,
      decide_eq_true (Int.negSucc_lt_zero n)]
    rfl

theorem isSpace_of_mem_toString {n : Int} {c : Char} (h : c ∈ (toString n).toList) :
    Text.isSpace c = false := by
  rw [← integerText_eq, Json.integerText, Number.signed] at h
  split at h
  · rcases List.mem_cons.1 h with rfl | h
    · decide
    · exact Text.isSpace_of_isDigit (Number.isDigit_of_mem_toDigits h)
  · exact Text.isSpace_of_isDigit (Number.isDigit_of_mem_toDigits h)

theorem toList_bareText_int (n : Int64) :
    (Value.int n).bareText.toList = (toString n.toInt).toList := by
  show (String.ofList (Json.integerText n.toInt)).toList = _
  rw [String.toList_ofList, integerText_eq]

theorem bareText_float {x : Float} (hx : x.isFinite = true) :
    (Value.float x).bareText = Number.floatText x := by
  rw [Value.bareText, Value.toJson, Json.ofFloat, if_pos hx]
  show String.ofList (Number.floatText x).toList = _
  rw [String.ofList_toList]

/-- The builtin types whose values are told by their texts. -/
def Builtin.Textual (b : Builtin) : Prop := b ≠ .any ∧ b ≠ .object

instance (b : Builtin) : Decidable b.Textual := inferInstanceAs (Decidable (_ ∧ _))

theorem Builtin.isContainer_of_convert? {b : Builtin} {v w : Value} (hb : b.Textual)
    (h : b.convert? v = some w) : v.isContainer = false := by
  cases v with
  | array items => cases b <;> simp [convert?, Textual] at h hb
  | object entries => cases b <;> simp [convert?, Textual] at h hb
  | _ => rfl

theorem Builtin.isContainer_of_holds {b : Builtin} {w : Value} (hb : b.Textual) (h : b.Holds w) :
    w.isContainer = false := by
  cases b with
  | any => exact absurd rfl hb.1
  | object => exact absurd rfl hb.2
  | _ =>
    obtain ⟨x, rfl⟩ := h
    rfl

/-- The two types that take everything take it as it is. -/
theorem Builtin.convert?_of_not_textual {b : Builtin} {v : Value} (hb : ¬b.Textual) :
    b.convert? v = some v := by
  cases b with
  | any => rfl
  | object => rfl
  | _ => exact absurd (by decide) hb

theorem Builtin.convert?_bareText {b : Builtin} {w : Value} (hb : b.Textual) (hh : b.Holds w)
    (hw : w.Writable) : b.convert? (.string w.bareText) = some w := by
  cases b with
  | any => exact absurd rfl hb.1
  | object => exact absurd rfl hb.2
  | string =>
    obtain ⟨s, rfl⟩ := hh
    rfl
  | bool =>
    obtain ⟨b, rfl⟩ := hh
    cases b <;> rfl
  | int =>
    obtain ⟨n, rfl⟩ := hh
    show (Number.int64? (Text.trim (Value.int n).bareText.toList)).map Value.int = _
    rw [toList_bareText_int, Text.trim_eq_self fun c hc => isSpace_of_mem_toString hc,
      Number.int64?_toString, Option.map_some]
  | float =>
    obtain ⟨x, rfl⟩ := hh
    show (finite? (Value.float x).bareText).map Value.float = _
    rw [bareText_float hw, finite?_floatText hw, Option.map_some]
  | date =>
    obtain ⟨d, rfl⟩ := hh
    show (Date.parse? d.text).map Value.date = _
    rw [Date.parse?_text, Option.map_some]
  | datetime =>
    obtain ⟨m, rfl⟩ := hh
    show (Moment.parse? m.text).map Value.moment = _
    rw [Moment.parse?_text, Option.map_some]
  | uuid =>
    obtain ⟨u, rfl⟩ := hh
    show (Uuid.parse? u.text).map Value.uuid = _
    rw [Uuid.parse?_text, Option.map_some]

namespace Validate

theorem restating_asTexts : Restating (fun _ => True)
    (fun u w => u = asTexts id w ∧ w.Throughout Writable) Builtin.Textual where
  items _ _ _ _ := trivial
  entries _ _ _ _ := trivial
  null := by
    rintro u ⟨rfl, -⟩
    exact .inr rfl
  string := by
    rintro u s ⟨rfl, -⟩
    rfl
  array := by
    rintro u ws ⟨rfl, hw⟩
    by_cases hne : ws = []
    · subst hne
      exact ⟨[], rfl, .nil⟩
    · refine ⟨_, by rw [Value.asTexts_array hne]; rfl, ?_⟩
      rw [List.forall₂_map_left_iff, List.forall₂_same]
      exact fun w hm => ⟨rfl, hw.item w hm⟩
  object := by
    rintro u entries ⟨rfl, hw⟩
    by_cases hne : entries = []
    · subst hne
      exact ⟨[], rfl, .nil⟩
    · refine ⟨_, by rw [Value.asTexts_object_id hne]; rfl, ?_⟩
      rw [List.forall₂_map_left_iff, List.forall₂_same]
      rintro ⟨k, w⟩ hm
      refine ⟨?_, rfl, hw.entry _ hm⟩
      cases k with
      | null => exact .inr ⟨rfl, rfl⟩
      | text s => exact .inl rfl
  leaf := by
    rintro b v u w hb - h ⟨rfl, hw⟩
    have hh := Builtin.holds_of_convert? h
    rw [Value.asTexts_scalar (Builtin.isContainer_of_holds hb hh)]
    exact Builtin.convert?_bareText hb hh hw.self

end Validate

end SchemaLang
