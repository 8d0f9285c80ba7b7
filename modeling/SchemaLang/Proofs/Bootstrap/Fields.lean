import SchemaLang.Proofs.Bootstrap
import SchemaLang.Proofs.Validate.Conformance

/-!
# What is written for values that conform

A value that conforms to a type of `Bootstrap.types` is written as JSON.  What is known of the
value is what the reading of a type model asks for: the fields of a record with their kinds, the
items of a list, the one member of a union.

* `Writes.string` to `Writes.union`: the JSON of each kind of type.
* `Fields`: the members of an object that conforms to a struct.
* `Fields.exists_required?`, `Fields.exists_optional?`: fields that can be read are read.
-/

namespace SchemaLang

/-! ## Reading lists and records -/

theorem exists_mapM_eq_some {α β : Type} {f : α → Option β} {P : β → Prop} {l : List α}
    (h : ∀ a ∈ l, ∃ b, f a = some b ∧ P b) :
    ∃ bs, l.mapM f = some bs ∧ bs.length = l.length ∧ ∀ b ∈ bs, P b := by
  induction l with
  | nil => exact ⟨[], rfl, rfl, by simp⟩
  | cons a l ih =>
    obtain ⟨⟨b, hb, hp⟩, hl⟩ := List.forall_mem_cons.1 h
    obtain ⟨bs, hbs, hlen, hps⟩ := ih hl
    refine ⟨b :: bs, ?_, by simp [hlen], List.forall_mem_cons.2 ⟨hp, hps⟩⟩
    rw [List.mapM_cons, hb, hbs]
    rfl

namespace Decode

variable {α : Type} {r : Record} {name : String} {f : Json → Option α} {P : α → Prop}

theorem exists_required? {j : Json} (hr : r name = some j) (h : ∃ a, f j = some a ∧ P a) :
    ∃ a, required? r name f = some a ∧ P a := by
  obtain ⟨a, ha, hp⟩ := h
  exact ⟨a, required?_eq hr ha, hp⟩

theorem exists_optional? (h : ∀ j, r name = some j → j = .null ∨ ∃ a, f j = some a ∧ P a) :
    ∃ o, optional? r name f = some o ∧ ∀ a, o = some a → P a := by
  rw [optional?]
  split
  · exact ⟨none, rfl, by simp⟩
  · exact ⟨none, rfl, by simp⟩
  · next j hn hj =>
    obtain ⟨a, ha, hp⟩ := (h j hj).resolve_left hn
    exact ⟨some a, by rw [ha]; rfl, fun _ he => Option.some.inj he ▸ hp⟩

theorem exists_bounds? {m : Measure}
    (h : ∀ c, ∃ o, optional? r (Comparison.fieldName m c) f = some o ∧ ∀ a, o = some a → P a) :
    ∃ b, bounds? r m f = some b ∧ ∀ c a, b.get? c = some a → P a := by
  obtain ⟨eq, heq, hpeq⟩ := h .eq
  obtain ⟨lt, hlt, hplt⟩ := h .lt
  obtain ⟨lte, hlte, hplte⟩ := h .lte
  obtain ⟨gt, hgt, hpgt⟩ := h .gt
  obtain ⟨gte, hgte, hpgte⟩ := h .gte
  refine ⟨{ eq, lt, lte, gt, gte }, ?_, fun c a hc => ?_⟩
  · rw [bounds?, heq, hlt, hlte, hgt, hgte]
    rfl
  · cases c with
    | eq => exact hpeq a hc
    | lt => exact hplt a hc
    | lte => exact hplte a hc
    | gt => exact hpgt a hc
    | gte => exact hpgte a hc

/-- The type in a member is read like any other field. -/
theorem typeMember?_eq_optional? (name : String) (fields : List (String × Json)) :
    typeMember? name fields = optional? (fun k => Entries.get? k fields) name type? := by
  induction fields with
  | nil => rfl
  | cons e fields ih =>
    obtain ⟨k, j⟩ := e
    by_cases hk : k = name
    · rw [optional?, Entries.get?_cons, if_pos hk]
      cases j <;> simp [typeMember?, hk]
    · rw [typeMember?_of_ne hk, ih, optional?, optional?, Entries.get?_cons, if_neg hk]

end Decode

namespace Bootstrap

open Validate Decode

theorem sound : types.Sound := Types.sound_of_lint lint_types

/-- The JSON of a value that conforms. -/
def Writes (p : Place) (j : Json) : Prop := ∃ w, Conforms types p w ∧ w.toJson = j

theorem Writes.type_of_site {ty : TypeRef} {attr : Option Attributes} {j : Json}
    (h : Writes (.site ty attr) j) (ha : allowsNull attr = false) :
    ∃ w, Conforms types (.type ty) w ∧ (∀ a, attr = some a → a.Meets w) ∧ w.toJson = j := by
  obtain ⟨w, hw, hj⟩ := h
  cases hw with
  | null hn => simp [ha] at hn
  | value _ hc hb => exact ⟨w, hc, hb, hj⟩

theorem Writes.plain {ty : TypeRef} {j : Json} (h : Writes (.site ty none) j) :
    Writes (.type ty) j := by
  obtain ⟨w, hc, -, hj⟩ := h.type_of_site rfl
  exact ⟨w, hc, hj⟩

/-! ## Scalars, lists and dicts -/

theorem Writes.string {j : Json} (h : Writes (.site (.builtin .string) none) j) :
    ∃ s, j = .string s := by
  obtain ⟨w, hc, -, rfl⟩ := h.type_of_site rfl
  cases hc with
  | builtin h =>
    obtain ⟨s, rfl⟩ := h
    exact ⟨s, rfl⟩

theorem Writes.bool {j : Json} (h : Writes (.site (.builtin .bool) none) j) : ∃ b, j = .bool b := by
  obtain ⟨w, hc, -, rfl⟩ := h.type_of_site rfl
  cases hc with
  | builtin h =>
    obtain ⟨b, rfl⟩ := h
    exact ⟨b, rfl⟩

theorem Writes.float {j : Json} (h : Writes (.site (.builtin .float) none) j) :
    j = .null ∨ ∃ x, float? j = some x ∧ x.isFinite = true := by
  obtain ⟨w, hc, -, rfl⟩ := h.type_of_site rfl
  cases hc with
  | builtin h =>
    obtain ⟨x, rfl⟩ := h
    rw [Value.toJson, Json.ofFloat]
    split
    · next hx => exact .inr ⟨x, rfl, hx⟩
    · exact .inl rfl

theorem nonneg_of_meets {n : Int64} (h : nonNegative.Meets (.int n)) : 0 ≤ n.toInt := by
  obtain ⟨y, hy, hle⟩ := h.number (c := .gte) rfl
  obtain rfl : Float.ofInt n.toInt = y := Option.some.inj hy
  have hlow := Int64.le_toInt n
  exact Number.nonneg_of_zero_le_ofInt (by omega) (of_decide_eq_true hle)

theorem Writes.count {j : Json} (h : Writes (.site (.builtin .int) (some nonNegative)) j) :
    ∃ n, uint64? j = some n ∧ n.toNat < 2 ^ 63 := by
  obtain ⟨w, hc, hb, rfl⟩ := h.type_of_site rfl
  cases hc with
  | builtin h =>
    obtain ⟨n, rfl⟩ := h
    have h0 := nonneg_of_meets (hb _ rfl)
    have hlt := Int64.toInt_lt n
    have hsize : n.toInt < UInt64.size := by
      rw [UInt64.size]
      omega
    refine ⟨UInt64.ofNat n.toInt.toNat, ?_, ?_⟩
    · rw [Value.toJson, uint64?, if_pos ⟨h0, hsize⟩]
    · rw [UInt64.toNat_ofNat']
      omega

/-- What meets the bound has something in it. -/
theorem length?_ne_zero_of_meets {w : Value} (h : nonEmpty.Meets w) : w.length? ≠ some 0 := by
  intro h0
  obtain ⟨l, hl, hlt⟩ := h.length (c := .gt) rfl
  obtain rfl : 0 = l := Option.some.inj (h0.symm.trans hl)
  exact absurd hlt (by decide +kernel)

theorem Writes.list {ty : TypeRef} {attr : Option Attributes} {j : Json}
    (h : Writes (.site (Bootstrap.list ty) attr) j) (ha : allowsNull attr = false) :
    ∃ js, j = .array js ∧ (attr = some nonEmpty → js ≠ [])
      ∧ ∀ i ∈ js, Writes (.site ty none) i := by
  obtain ⟨w, hc, hb, rfl⟩ := h.type_of_site ha
  cases hc with
  | @array _ _ ws hws =>
    refine ⟨ws.map Value.toJson, ?_, fun he => ?_, fun i hi => ?_⟩
    · rw [Value.toJson, Value.toJsonItems_eq_map]
    · have h0 := length?_ne_zero_of_meets (hb _ he)
      simpa [Value.length?] using h0
    · obtain ⟨w, hw, rfl⟩ := List.mem_map.1 hi
      exact ⟨w, hws w hw, rfl⟩

/-- Items that can be read one by one are read as a list. -/
theorem Writes.items {α : Type} {ty : TypeRef} {attr : Option Attributes} {j : Json}
    {f : Json → Option α} {P : α → Prop} (h : Writes (.site (Bootstrap.list ty) attr) j)
    (ha : allowsNull attr = false) (hf : ∀ i, Writes (.site ty none) i → ∃ a, f i = some a ∧ P a) :
    ∃ l, list? f j = some l ∧ (attr = some nonEmpty → l ≠ []) ∧ ∀ a ∈ l, P a := by
  obtain ⟨js, rfl, hne, hjs⟩ := h.list ha
  obtain ⟨l, hl, hlen, hp⟩ := exists_mapM_eq_some fun i hi => hf i (hjs i hi)
  refine ⟨l, hl, fun he hnil => hne he ?_, hp⟩
  rwa [hnil, List.length_nil, eq_comm, List.length_eq_zero_iff] at hlen

/-- A dict whose keys are texts is written with the entries that it has. -/
theorem Writes.dict {ty : TypeRef} {attr : Option Attributes} {j : Json}
    (h : Writes (.site (.dict ty none none none) attr) j) (ha : allowsNull attr = false) :
    ∃ fields, j = .object fields ∧ (attr = some nonEmpty → fields ≠ [])
      ∧ ∀ e ∈ fields, Writes (.site ty none) e.2 := by
  obtain ⟨w, hc, hb, rfl⟩ := h.type_of_site ha
  cases hc with
  | @dict _ _ _ _ entries hn hk hv =>
    have htext : ∀ k ∈ Entries.keys entries, ∃ s, k = .text s := by
      intro k hkm
      obtain ⟨e, he, rfl⟩ := List.mem_map.1 hkm
      obtain ⟨s, hs⟩ := Writes.string ⟨_, hk e he, rfl⟩
      obtain ⟨k, v⟩ := e
      cases k with
      | null => simp [Value.ofKey, Value.toJson] at hs
      | text s => exact ⟨s, rfl⟩
    have hnt : (Value.texts entries).Nodup := by
      have hmap := hn.map_on (f := Key.toText) fun k hk k' hk' he => by
        obtain ⟨s, rfl⟩ := htext k hk
        obtain ⟨s', rfl⟩ := htext k' hk'
        exact congrArg _ he
      rwa [Entries.keys, List.map_map] at hmap
    refine ⟨_, Value.toJson_object hnt, fun he => ?_, fun e hm => ?_⟩
    · have h0 := length?_ne_zero_of_meets (hb _ he)
      simpa [Value.length?] using h0
    · obtain ⟨e, he, rfl⟩ := List.mem_map.1 hm
      exact ⟨e.2, hv e he, rfl⟩

/-! ## Structs -/

/-- Members of an object that conforms to a struct: what is there conforms to the member, and what
is not optional is there. -/
structure Fields (members : List Member) (fields : List (String × Json)) : Prop where
  given : ∀ m ∈ members, ∀ j, Entries.get? m.name fields = some j →
    Writes (.site m.type m.attr) j
  required : ∀ m ∈ members, m.optional = false → ∃ j, Entries.get? m.name fields = some j

theorem Writes.struct {name : String} {s : Struct} {j : Json}
    (hd : types.get? name = some (.struct s)) (h : Writes (.type (.user name)) j) :
    ∃ set : List (Member × Value), j = .object (set.map fun p => (p.1.name, p.2.toJson))
      ∧ (∀ p ∈ set, p.1 ∈ types.members s ∧ Conforms types (.site p.1.type p.1.attr) p.2)
      ∧ (s.union = false → ∀ m ∈ types.members s, m.optional = false → m ∈ set.map Prod.fst)
      ∧ (s.union = true → set.length = 1) := by
  obtain ⟨w, hc, rfl⟩ := h
  have hmem : ∀ {m}, Struct.heritage.HasItem types s m ↔ m ∈ types.members s :=
    (Types.mem_walk_iff (sound.structWalk hd)).symm
  cases hc with
  | typedef hd' _ => simp [hd] at hd'
  | enum hd' _ => simp [hd] at hd'
  | @struct _ _ set hd' hn hm ho hu h =>
    obtain rfl : s = _ := Definition.struct.inj (Option.some.inj (hd.symm.trans hd'))
    refine ⟨set, ?_, fun p hp => ⟨hmem.1 (hm p hp), h p hp⟩, fun huf m hmm hopt => ?_, hu⟩
    · rw [Value.toJson_object, List.map_map]
      · rfl
      · rw [Value.texts, List.map_map]
        exact hn
    · exact ho huf m (hmem.2 hmm) hopt

theorem Writes.fields {name : String} {j : Json} (h : Writes (.type (.user name)) j) (s : Struct)
    (members : List Member) (hd : types.get? name = some (.struct s))
    (hms : types.members s = members) (hu : s.union = false) :
    ∃ fields, j = .object fields ∧ Fields members fields := by
  obtain ⟨set, rfl, hset, hreq, -⟩ := h.struct hd
  subst hms
  refine ⟨_, rfl, fun m hm j hj => ?_, fun m hm ho => ?_⟩
  · obtain ⟨p, hp, he⟩ := List.mem_map.1 (Entries.mem_of_get? hj)
    obtain ⟨hname, rfl⟩ := Prod.mk.inj he
    obtain ⟨hpm, hc⟩ := hset p hp
    obtain rfl := List.inj_on_of_nodup_map (sound.nodup hd) hpm hm hname
    exact ⟨p.2, hc, rfl⟩
  · obtain ⟨p, hp, rfl⟩ := List.mem_map.1 (hreq hu m hm ho)
    refine Entries.exists_get?_of_mem ?_
    rw [Entries.keys, List.map_map]
    exact List.mem_map.2 ⟨p, hp, rfl⟩

/-- A union has just one of its members. -/
theorem Writes.union {name : String} {j : Json} (h : Writes (.type (.user name)) j) (s : Struct)
    (members : List Member) (hd : types.get? name = some (.struct s))
    (hms : types.members s = members) (hu : s.union = true) :
    ∃ m ∈ members, ∃ body, j = .object [(m.name, body)] ∧ Writes (.site m.type m.attr) body := by
  obtain ⟨set, rfl, hset, -, hone⟩ := h.struct hd
  obtain ⟨p, rfl⟩ := List.length_eq_one_iff.1 (hone hu)
  obtain ⟨hm, hc⟩ := hset p List.mem_cons_self
  exact ⟨p.1, hms ▸ hm, p.2.toJson, rfl, p.2, hc, rfl⟩

/-! ## Records -/

namespace Fields

variable {α : Type} {members : List Member} {fields : List (String × Json)} {m : Member}
  {f : Json → Option α} {P : α → Prop}

theorem exists_required? (h : Fields members fields) (hm : m ∈ members)
    (ho : m.optional = false)
    (hf : ∀ j, Writes (.site m.type m.attr) j → ∃ a, f j = some a ∧ P a) :
    ∃ a, required? (fun k => Entries.get? k fields) m.name f = some a ∧ P a := by
  obtain ⟨j, hj⟩ := h.required m hm ho
  exact Decode.exists_required? hj (hf j (h.given m hm j hj))

theorem exists_optional? (h : Fields members fields) (hm : m ∈ members)
    (hf : ∀ j, Writes (.site m.type m.attr) j → j = .null ∨ ∃ a, f j = some a ∧ P a) :
    ∃ o, optional? (fun k => Entries.get? k fields) m.name f = some o
      ∧ ∀ a, o = some a → P a :=
  Decode.exists_optional? fun j hj => hf j (h.given m hm j hj)

theorem exists_flag? (h : Fields members fields) (hm : m ∈ members)
    (ht : m.type = .builtin .bool) (ha : m.attr = none) :
    ∃ b, flag? (fun k => Entries.get? k fields) m.name = some b := by
  rw [flag?]
  cases hj : Entries.get? m.name fields with
  | none => exact ⟨false, rfl⟩
  | some j =>
    have hw := h.given m hm j hj
    rw [ht, ha] at hw
    obtain ⟨b, rfl⟩ := hw.bool
    exact ⟨b, rfl⟩

theorem exists_name? (h : Fields members fields) (hm : m ∈ members) (ho : m.optional = false)
    (ht : m.type = .builtin .string) (ha : m.attr = none) :
    ∃ s, required? (fun k => Entries.get? k fields) m.name string? = some s := by
  obtain ⟨s, hs, -⟩ := h.exists_required? (f := string?) (P := fun _ => True) hm ho fun j hj => by
    rw [ht, ha] at hj
    obtain ⟨s, rfl⟩ := hj.string
    exact ⟨s, rfl, trivial⟩
  exact ⟨s, hs⟩

theorem exists_text? (h : Fields members fields) (hm : m ∈ members)
    (ht : m.type = .builtin .string) (ha : m.attr = none) :
    ∃ o, optional? (fun k => Entries.get? k fields) m.name string? = some o := by
  obtain ⟨o, ho, -⟩ := h.exists_optional? (f := string?) (P := fun _ => True) hm fun j hj => by
    rw [ht, ha] at hj
    obtain ⟨s, rfl⟩ := hj.string
    exact .inr ⟨s, rfl, trivial⟩
  exact ⟨o, ho⟩

/-- A list is empty only where it may be. -/
theorem exists_items? {ty : TypeRef} (h : Fields members fields) (hm : m ∈ members)
    (ht : m.type = Bootstrap.list ty) (ha : allowsNull m.attr = false)
    (hf : ∀ i, Writes (.site ty none) i → ∃ a, f i = some a ∧ P a) :
    ∃ o, optional? (fun k => Entries.get? k fields) m.name (list? f) = some o
      ∧ ∀ l, o = some l → (m.attr = some nonEmpty → l ≠ []) ∧ ∀ a ∈ l, P a :=
  h.exists_optional? (P := fun l => (m.attr = some nonEmpty → l ≠ []) ∧ ∀ a ∈ l, P a) hm
    fun j hj => by
      rw [ht] at hj
      exact .inr (hj.items ha hf)

theorem exists_texts? (h : Fields members fields) (hm : m ∈ members)
    (ht : m.type = Bootstrap.list (.builtin .string)) (ha : allowsNull m.attr = false) :
    ∃ o, optional? (fun k => Entries.get? k fields) m.name (list? string?) = some o
      ∧ (m.attr = some nonEmpty → o ≠ some []) := by
  obtain ⟨o, ho, hl⟩ := h.exists_items? (f := string?) (P := fun _ => True) hm ht ha fun i hi => by
    obtain ⟨s, rfl⟩ := hi.string
    exact ⟨s, rfl, trivial⟩
  exact ⟨o, ho, fun he hnil => (hl [] hnil).1 he rfl⟩

end Fields

end Bootstrap

end SchemaLang
