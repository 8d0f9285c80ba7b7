import SchemaLang.Proofs.Reaches
import SchemaLang.Proofs.Validate.Keys
import SchemaLang.Proofs.Validate.Members

/-!
# Reading again what has been read

A value that restates what has been read, in whatever form, is read as the same value again.  What
a form has to do for that is gathered in `Restating`: it keeps null and the texts recognisable,
goes into containers item by item and entry by entry, and can be read back at the leaves.

* `Reads.restate`: a restated value is read as what it restates.
-/

namespace SchemaLang

namespace Validate

/-- A key as it may be restated: the null key also as its text. -/
def KeyRestates (k' k : Key) : Prop := k' = k ∨ (k = .null ∧ k' = .text "null")

/-- `R u w` says that `u` restates `w`, where `w` has been read from a value with the property
`D`, at places where only `allowed` builtin types are met. -/
structure Restating (D : Value → Prop) (R : Value → Value → Prop) (allowed : Builtin → Prop) :
    Prop where
  items : ∀ {v : Value} {items : List Value}, D v → v.items? = some items → ∀ a ∈ items, D a
  entries : ∀ {v : Value} {entries : List (Key × Value)}, D v → v.entries? = some entries →
    ∀ e ∈ entries, D e.2
  null : ∀ {u : Value}, R u .null → u.isNull = true ∨ u.isNullText = true
  string : ∀ {u : Value} {s : String}, R u (.string s) → u = .string s
  array : ∀ {u : Value} {ws : List Value}, R u (.array ws) →
    ∃ us, u.items? = some us ∧ List.Forall₂ R us ws
  object : ∀ {u : Value} {entries : List (Key × Value)}, R u (.object entries) →
    ∃ fs, u.entries? = some fs
      ∧ List.Forall₂ (fun f e => KeyRestates f.1 e.1 ∧ R f.2 e.2) fs entries
  leaf : ∀ {b : Builtin} {v u w : Value}, allowed b → D v → b.convert? v = some w → R u w →
    b.convert? u = some w

variable {types : Types}

/-- The text `null` is read as null or as itself. -/
theorem Reads.of_isNullText {p : Place} {u w : Value} (h : Reads types p u w)
    (hu : u.isNullText = true) : w = .null ∨ w = .string "null" := by
  rw [Value.isNullText_iff] at hu
  induction h with
  | null _ _ => exact .inl rfl
  | value _ _ _ _ _ ih => exact ih hu
  | typedef _ _ _ ih => exact ih hu
  | builtin h =>
    subst hu
    exact .inr (Builtin.eq_of_convert?_nullText h)
  | array hv _ _ => simp [hu, Value.items?] at hv
  | dict hv _ _ _ => simp [hu, Value.entries?] at hv
  | enum _ _ => exact .inr hu
  | struct _ hv _ _ _ _ _ => simp [hu, Value.entries?] at hv

/-- Where a value that is not null has been read, what is read as the same value is read there as
well. -/
theorem Reads.site_of_type {ty : TypeRef} {attr : Option Attributes} {v u w : Value}
    (ht : ¬(allowsNull attr = true ∧ v.isNullText = true)) (h : Reads types (.type ty) v w)
    (hn : w.isNull = false) (hb : brokenBound? attr w = none) (hu : Reads types (.type ty) u w) :
    Reads types (.site ty attr) u w := by
  refine .value ?_ (fun hnt => ?_) hu hn hb
  · cases hun : u.isNull with
    | false => rfl
    | true => simp [hu.null_of_isNull hun, Value.isNull] at hn
  · rcases hu.of_isNullText hnt.2 with rfl | rfl
    · simp [Value.isNull] at hn
    · exact ht ⟨hnt.1, by simp [h.eq_of_string, Value.isNullText]⟩

/-- A key that restates one that has been read is read as that. -/
theorem Reads.restate_key {ty : TypeRef} {attr : Option Attributes} {v w : Value} {k : Key}
    (h : Reads types (.site ty attr) v w)
    (hk : Site.isKeyType types (types.effective ty) = true) (hr : KeyRestates k (keyOf w)) :
    Reads types (.site ty attr) (.ofKey k) w := by
  rcases h.key hk with ⟨rfl, ha⟩ | ⟨s, rfl, rfl⟩
  · rcases hr with rfl | ⟨-, rfl⟩
    · exact .null ha (.inl rfl)
    · exact .null ha (.inr (by simp [Value.ofKey, Value.isNullText]))
  · rcases hr with rfl | ⟨hn, -⟩
    · exact h
    · simp [keyOf] at hn

/-- The entries that restate a struct are its members again, with values that restate theirs. -/
theorem exists_named {R : Value → Value → Prop} {ms : List Member} {ws : List Value}
    {fs : List (Key × Value)} (hl : ms.length = ws.length)
    (h : List.Forall₂ (fun f e => KeyRestates f.1 e.1 ∧ R f.2 e.2) fs (named ms ws)) :
    ∃ us, fs = named ms us ∧ List.Forall₂ R us ws := by
  induction ms generalizing ws fs with
  | nil =>
    rw [List.length_nil] at hl
    rw [List.eq_nil_of_length_eq_zero hl.symm] at h ⊢
    exact ⟨[], by cases h; rfl, .nil⟩
  | cons m ms ih =>
    cases ws with
    | nil => simp at hl
    | cons w ws =>
      cases h with
      | @cons f _ fs _ hd htl =>
        obtain ⟨us, rfl, hus⟩ := ih (Nat.succ.inj hl) htl
        obtain ⟨k, u⟩ := f
        rcases hd.1 with rfl | ⟨hn, -⟩
        · exact ⟨u :: us, rfl, .cons hd.2 hus⟩
        · simp at hn

theorem mem_zip_zip {α β γ : Type} {as : List α} {bs : List β} {cs : List γ} {a : α} {b : β}
    {c : γ} (h : ((a, b), c) ∈ (as.zip bs).zip cs) : (a, c) ∈ as.zip cs ∧ (b, c) ∈ bs.zip cs := by
  induction as generalizing bs cs with
  | nil => simp at h
  | cons x as ih =>
    cases bs with
    | nil => simp at h
    | cons y bs =>
      cases cs with
      | nil => simp at h
      | cons z cs =>
        rcases List.mem_cons.1 h with h | h
        · cases h
          exact ⟨List.mem_cons_self, List.mem_cons_self⟩
        · exact (ih h).imp (List.mem_cons_of_mem _) (List.mem_cons_of_mem _)

/-- What stands under the names of some members of a struct is read member by member. -/
theorem Reads.struct_named {name : String} {s : Struct} {u : Value} {ms : List Member}
    {us ws : List Value} (hd : types.get? name = some (.struct s))
    (hn : ((types.members s).map Member.name).Nodup) (hs : List.Sublist ms (types.members s))
    (hlu : ms.length = us.length) (hlw : ms.length = ws.length)
    (hu : u.entries? = some (named ms us)) (hun : s.union = true → ms.length = 1)
    (ho : ∀ m ∈ types.members s, m ∉ ms → m.optional = true ∨ s.union = true)
    (h : ∀ {m u w}, ((m, u), w) ∈ (ms.zip us).zip ws → Reads types (.site m.type m.attr) u w) :
    Reads types (.type (.user name)) u (.object (Entries.ofList (named ms ws))) := by
  have hp := present_named hn hs hlu
  have hz : (present (types.members s) (named ms us)).map Prod.fst = ms := by
    rw [hp, List.map_fst_zip (Nat.le_of_eq hlu)]
  have hr : Reads types (.type (.user name)) u (.object (Entries.ofList
      (named ((present (types.members s) (named ms us)).map Prod.fst) ws))) := by
    refine .struct hd hu ?_ ?_ ?_ ?_ ?_
    · intro hut
      rw [named, List.length_map, List.length_zip, ← hlu, Nat.min_self, hun hut]
    · intro k hk
      rw [keys_named hlu] at hk
      obtain ⟨m, hm, rfl⟩ := List.mem_map.1 hk
      exact ⟨m, hs.subset hm, rfl⟩
    · intro m hm hk
      refine ho m hm fun hmm => hk ?_
      rw [keys_named hlu]
      exact List.mem_map_of_mem (f := fun m => Key.text m.name) hmm
    · rw [hp, List.length_zip, ← hlu, Nat.min_self, hlw]
    · rw [hp]
      exact h
  rwa [hz] at hr

theorem Reads.restate {D : Value → Prop} {R : Value → Value → Prop} {allowed : Builtin → Prop}
    (hR : Restating D R allowed) (hs : types.Sound) {p : Place} {v u w : Value}
    (h : Reads types p v w) (hk : KeysSound types p.ty)
    (ha : ∀ b, types.Reaches p.ty (.builtin b) → allowed b) (hv : D v) (hu : R u w) :
    Reads types p u w := by
  induction h generalizing u with
  | null han _ => exact .null han (hR.null hu)
  | value _ ht h hn hb ih => exact h.site_of_type ht hn hb (ih hk ha hv hu)
  | typedef hd hc _ ih =>
    exact .typedef hd hc (ih (hs.typedefKeys hd)
      (fun b hb => ha b (Types.Uses.reaches (.typedef hd) hb)) hv hu)
  | builtin h => exact .builtin (hR.leaf (ha _ .refl) hv h hu)
  | @array element attr v items ws hi hl _ ih =>
    obtain ⟨us, hus, hr⟩ := hR.array hu
    obtain ⟨hlu, hr⟩ := List.forall₂_iff_zip.1 hr
    refine .array hus hlu ?_
    intro u w hm
    obtain ⟨a, hma⟩ := exists_mem_zip hl (List.of_mem_zip hm).2
    exact ih hma hk (fun b hb => ha b (Types.Uses.reaches .element hb))
      (hR.items hv hi a (List.of_mem_zip hma).1) (hr hm)
  | @dict value attr key keyAttr v entries pairs hi hl hkr _ _ ih =>
    have hkt := isKeyType_of_keysSound hk
    obtain ⟨fs, hfs, hr⟩ := hR.object hu
    obtain ⟨hlf, hr⟩ := List.forall₂_iff_zip.1 hr
    have hkeyed : keyed ((Entries.ofList (keyed pairs)).map fun q => (.ofKey q.1, q.2))
        = Entries.ofList (keyed pairs) := by
      simp [keyed, keyOf_ofKey, Function.comp_def]
    have hsource : ∀ {f p : _}, (f, p) ∈ fs.zip ((Entries.ofList (keyed pairs)).map fun q =>
        (Value.ofKey q.1, q.2)) → ∃ e q, (e, q) ∈ entries.zip pairs
          ∧ KeyRestates f.1 (keyOf q.1) ∧ R f.2 q.2 ∧ p = (.ofKey (keyOf q.1), q.2) := by
      intro f p hm
      rw [List.zip_map_right] at hm
      obtain ⟨⟨f', q'⟩, hmq, hf⟩ := List.mem_map.1 hm
      cases hf
      obtain ⟨e, q, hme, rfl⟩ := exists_of_mem_keyed hl (List.of_mem_zip hmq).2
      exact ⟨e, q, hme, (hr hmq).1, (hr hmq).2, rfl⟩
    rw [← Entries.ofList_ofList, ← hkeyed]
    refine .dict hfs (by rw [List.length_map, hlf]) (fun hm => ?_) fun hm => ?_
    · obtain ⟨e, q, hme, hkey, -, rfl⟩ := hsource hm
      have hrk := (hkr hme).restate_key hkt hkey
      rwa [(hkr hme).ofKey_keyOf hkt]
    · obtain ⟨e, q, hme, -, hval, rfl⟩ := hsource hm
      exact ih hme (keysSound_value hk) (fun b hb => ha b (Types.Uses.reaches .value hb))
        (hR.entries hv hi e (List.of_mem_zip hme).1) hval
  | enum hd he =>
    rw [hR.string hu]
    exact .enum hd he
  | @struct name s v entries ws hd hi hun hkn ho hl _ ih =>
    have hn := hs.nodup hd
    have hsub := sublist_present (types.members s) entries
    have hlm : ((present (types.members s) entries).map Prod.fst).length = ws.length := by
      rw [List.length_map, hl]
    obtain ⟨fs, hfs, hro⟩ := hR.object hu
    rw [ofList_named hlm (nodup_present hn _)] at hro
    obtain ⟨us, rfl, hrn⟩ := exists_named hlm hro
    obtain ⟨hlu, hr⟩ := List.forall₂_iff_zip.1 hrn
    refine .struct_named hd hn hsub (hlm.trans hlu.symm) hlm hfs (fun hut => ?_)
      (fun m hm hnm => ?_) fun hm => ?_
    · rw [List.length_map]
      exact length_present_of_length_eq_one hn hkn (hun hut)
    · refine ho m hm fun hk => hnm ?_
      obtain ⟨v, hv⟩ := Entries.exists_get?_of_mem hk
      have hp : (m, v) ∈ present (types.members s) entries := mem_present.2 ⟨hm, hv⟩
      exact List.mem_map_of_mem (f := Prod.fst) hp
    · obtain ⟨hmw, hmu⟩ := mem_zip_zip hm
      obtain ⟨v, hmv⟩ := exists_of_mem_zip_map_fst hmw
      have hp := mem_present.1 (List.of_mem_zip hmv).1
      exact ih hmv (hs.memberKeys hd hp.1)
        (fun b hb => ha b (Types.Uses.reaches (.member hd (Types.hasItem_of_mem_walk hp.1)) hb))
        (hR.entries hv hi _ (Entries.mem_of_get? hp.2)) (hr hmu)

end Validate

end SchemaLang
