import SchemaLang.Proofs.Validate.Attributes
import SchemaLang.Proofs.Validate.Equivalence
import SchemaLang.Proofs.Validate.Keys

/-!
# Validated values conform to their types

`Conforms types p w` says what a value of a type is, without a word on how other values are read
as one: null only where it is allowed, else a value of the kind of the type with all bounds met.

* `Reads.conforms`: what is read conforms.
* `conforms_of_validateAs`: with types in which the linter finds nothing, so does what is validated.
-/

namespace SchemaLang

namespace Validate

inductive Conforms (types : Types) : Place → Value → Prop
  | null {ty : TypeRef} {attr : Option Attributes} (ha : allowsNull attr = true) :
      Conforms types (.site ty attr) .null
  | value {ty : TypeRef} {attr : Option Attributes} {w : Value} (hn : w ≠ .null)
      (h : Conforms types (.type ty) w) (hb : ∀ a, attr = some a → a.Meets w) :
      Conforms types (.site ty attr) w
  | typedef {name : String} {t : Typedef} {w : Value} (hd : types.get? name = some (.typedef t))
      (h : Conforms types (.site t.type t.attr) w) : Conforms types (.type (.user name)) w
  | builtin {b : Builtin} {w : Value} (h : b.Holds w) : Conforms types (.type (.builtin b)) w
  | array {element : TypeRef} {attr : Option Attributes} {ws : List Value}
      (h : ∀ w ∈ ws, Conforms types (.site element attr) w) :
      Conforms types (.type (.array element attr)) (.array ws)
  | dict {value : TypeRef} {attr : Option Attributes} {key : Option TypeRef}
      {keyAttr : Option Attributes} {entries : List (Key × Value)}
      (hn : (Entries.keys entries).Nodup)
      (hk : ∀ e ∈ entries,
        Conforms types (.site (key.getD (.builtin .string)) keyAttr) (.ofKey e.1))
      (h : ∀ e ∈ entries, Conforms types (.site value attr) e.2) :
      Conforms types (.type (.dict value attr key keyAttr)) (.object entries)
  | enum {name : String} {e : Enum} {value : EnumValue} (hd : types.get? name = some (.enum e))
      (hv : Enum.heritage.HasItem types e value) :
      Conforms types (.type (.user name)) (.string value.name)
  /-- All members of a struct are set that are not optional, and one member of a union. -/
  | struct {name : String} {s : Struct} {set : List (Member × Value)}
      (hd : types.get? name = some (.struct s)) (hn : (set.map fun p => p.1.name).Nodup)
      (hm : ∀ p ∈ set, Struct.heritage.HasItem types s p.1)
      (ho : s.union = false → ∀ m, Struct.heritage.HasItem types s m → m.optional = false →
        m ∈ set.map Prod.fst)
      (hu : s.union = true → set.length = 1)
      (h : ∀ p ∈ set, Conforms types (.site p.1.type p.1.attr) p.2) :
      Conforms types (.type (.user name)) (.object (set.map fun p => (.text p.1.name, p.2)))

variable {types : Types}

theorem Reads.conforms {p : Place} {v w : Value} (hs : types.Sound) (h : Reads types p v w)
    (hk : KeysSound types p.ty) : Conforms types p w := by
  induction h with
  | null ha _ => exact .null ha
  | value _ _ _ hn hb ih =>
    refine .value ?_ (ih hk) (brokenBound?_eq_none_iff.1 hb)
    rintro rfl
    simp [Value.isNull] at hn
  | typedef hd _ _ ih => exact .typedef hd (ih (hs.typedefKeys hd))
  | builtin h => exact .builtin (Builtin.holds_of_convert? h)
  | array _ hl _ ih =>
    refine .array ?_
    intro w hw
    obtain ⟨a, hm⟩ := exists_mem_zip hl hw
    exact ih hm hk
  | @dict value attr key keyAttr v entries pairs _ hl hkr _ ihk ih =>
    have hkt := isKeyType_of_keysSound hk
    refine .dict (Entries.nodup_keys_ofList _) (fun e he => ?_) fun e he => ?_
    · obtain ⟨a, p, hm, rfl⟩ := exists_of_mem_keyed hl he
      rw [(hkr hm).ofKey_keyOf hkt]
      exact ihk hm (keysSound_of_isKeyType hkt)
    · obtain ⟨a, p, hm, rfl⟩ := exists_of_mem_keyed hl he
      exact ih hm (keysSound_value hk)
  | @enum name e s hd hv =>
    obtain ⟨value, hm, rfl⟩ := hv
    exact .enum hd (Types.hasItem_of_mem_walk hm)
  | @struct name s v entries ws hd _ hu hkn ho hl _ ih =>
    have hn := hs.nodup hd
    have hlm : ((present (types.members s) entries).map Prod.fst).length = ws.length := by
      rw [List.length_map, hl]
    have hz : (((present (types.members s) entries).map Prod.fst).zip ws).map Prod.fst
        = (present (types.members s) entries).map Prod.fst := List.map_fst_zip (Nat.le_of_eq hlm)
    rw [ofList_named hlm (nodup_present hn _), named]
    refine .struct hd ?_ ?_ ?_ ?_ ?_
    · have hnp := nodup_present hn entries
      rw [← hz, List.map_map] at hnp
      exact hnp
    · intro p hp
      obtain ⟨v, hm⟩ := exists_of_mem_zip_map_fst hp
      exact Types.hasItem_of_mem_walk (mem_present.1 (List.of_mem_zip hm).1).1
    · intro huf m hm hof
      have hmem : m ∈ types.members s := (Types.mem_walk_iff (hs.structWalk hd)).2 hm
      have hkm : .text m.name ∈ Entries.keys entries := by
        by_contra hc
        have := ho m hmem hc
        simp [huf, hof] at this
      obtain ⟨v, hv⟩ := Entries.exists_get?_of_mem hkm
      have hp : (m, v) ∈ present (types.members s) entries := mem_present.2 ⟨hmem, hv⟩
      rw [hz]
      exact List.mem_map_of_mem (f := Prod.fst) hp
    · intro hut
      rw [List.length_zip, ← hlm, Nat.min_self, List.length_map,
        length_present_of_length_eq_one hn hkn (hu hut)]
    · intro p hp
      obtain ⟨v, hm⟩ := exists_of_mem_zip_map_fst hp
      have hc := ih hm (hs.memberKeys hd (mem_present.1 (List.of_mem_zip hm).1).1)
      exact hc

end Validate

theorem conforms_of_validateAs {types : Types} {name : String} {v w : Value}
    (hl : types.lint = []) (h : types.validateAs name v = .ok w) :
    Validate.Conforms types (.type (.user name)) w :=
  (Types.validateAs_eq_ok_iff.1 h).2.conforms (Types.sound_of_lint hl) trivial

theorem conforms_of_validateAs_sample :
    Types.sample.lint = []
      ∧ Types.sample.validateAs "Tally" Value.sample = .ok Value.sampleRead
      ∧ Validate.Conforms Types.sample (.type (.user "Tally")) Value.sampleRead :=
  ⟨Types.lint_sample, validateAs_sample, conforms_of_validateAs Types.lint_sample validateAs_sample⟩

end SchemaLang
