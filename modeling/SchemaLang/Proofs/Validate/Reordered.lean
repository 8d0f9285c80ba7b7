import SchemaLang.Proofs.Validate.Texts
import SchemaLang.Proofs.Validate.Writable
import SchemaLang.Proofs.Value.Rearranged

/-!
# Reading values whose entries stand in another order

The members of a struct are looked up by their names, so the order that they stand in does not
matter; that of the entries of a dict is kept, and so is all of what `any` and `object` take.

* `Reads.shuffle`: what a rearranged value is read as.
* `Reads.rearrange`: the same where neither `any` nor `object` is reached.
-/

namespace SchemaLang

open Value (Writable Rearranged texts)

/-- Values of a type that are the same up to the order of the entries of dicts. -/
inductive Types.Reordered (types : Types) : TypeRef → Value → Value → Prop
  | refl (ty : TypeRef) (w : Value) : Reordered types ty w w
  | array {element : TypeRef} {attr : Option Attributes} (ps : List (Value × Value))
      (h : ∀ p ∈ ps, Reordered types element p.1 p.2) :
      Reordered types (.array element attr) (.array (ps.map Prod.fst)) (.array (ps.map Prod.snd))
  | dict {value : TypeRef} {attr keyAttr : Option Attributes} {key : Option TypeRef}
      {entries : List (Key × Value)} (ps : List (Key × Value × Value))
      (hp : entries.Perm (ps.map fun p => (p.1, p.2.1)))
      (h : ∀ p ∈ ps, Reordered types value p.2.1 p.2.2) :
      Reordered types (.dict value attr key keyAttr) (.object entries)
        (.object (ps.map fun p => (p.1, p.2.2)))
  | typedef {name : String} {t : Typedef} {w' w : Value}
      (hd : types.get? name = some (.typedef t)) (h : Reordered types t.type w' w) :
      Reordered types (.user name) w' w
  | struct {name : String} {s : Struct} (hd : types.get? name = some (.struct s))
      (ps : List (Member × Value × Value)) (hm : ∀ p ∈ ps, p.1 ∈ types.members s)
      (h : ∀ p ∈ ps, Reordered types p.1.type p.2.1 p.2.2) :
      Reordered types (.user name) (.object (ps.map fun p => (.text p.1.name, p.2.1)))
        (.object (ps.map fun p => (.text p.1.name, p.2.2)))

/-- Values of a type that are the same up to the order of the entries of dicts and of whatever is
inside values that are taken as they are. -/
inductive Types.Shuffled (types : Types) : TypeRef → Value → Value → Prop
  | refl (ty : TypeRef) (w : Value) : Shuffled types ty w w
  | free {b : Builtin} {w' w : Value} (hb : ¬b.Textual) (h : Rearranged w' w) :
      Shuffled types (.builtin b) w' w
  | array {element : TypeRef} {attr : Option Attributes} (ps : List (Value × Value))
      (h : ∀ p ∈ ps, Shuffled types element p.1 p.2) :
      Shuffled types (.array element attr) (.array (ps.map Prod.fst)) (.array (ps.map Prod.snd))
  | dict {value : TypeRef} {attr keyAttr : Option Attributes} {key : Option TypeRef}
      {entries : List (Key × Value)} (ps : List (Key × Value × Value))
      (hp : entries.Perm (ps.map fun p => (p.1, p.2.1)))
      (h : ∀ p ∈ ps, Shuffled types value p.2.1 p.2.2) :
      Shuffled types (.dict value attr key keyAttr) (.object entries)
        (.object (ps.map fun p => (p.1, p.2.2)))
  | typedef {name : String} {t : Typedef} {w' w : Value}
      (hd : types.get? name = some (.typedef t)) (h : Shuffled types t.type w' w) :
      Shuffled types (.user name) w' w
  | struct {name : String} {s : Struct} (hd : types.get? name = some (.struct s))
      (ps : List (Member × Value × Value)) (hm : ∀ p ∈ ps, p.1 ∈ types.members s)
      (h : ∀ p ∈ ps, Shuffled types p.1.type p.2.1 p.2.2) :
      Shuffled types (.user name) (.object (ps.map fun p => (.text p.1.name, p.2.1)))
        (.object (ps.map fun p => (.text p.1.name, p.2.2)))

namespace Validate

variable {types : Types}

/-! ## What the order does not matter to -/

theorem isNull_eq_of_shuffled {ty : TypeRef} {w' w : Value} (h : types.Shuffled ty w' w) :
    w'.isNull = w.isNull := by
  induction h with
  | free _ h => exact h.isNull_eq
  | typedef _ _ ih => exact ih
  | _ => rfl

theorem measured?_array_congr {items items' : List Value} (h : items'.length = items.length)
    (m : Measure) : (Value.array items').measured? m = (Value.array items).measured? m := by
  cases m <;> simp [Value.measured?, Value.number?, Value.length?, h]

theorem measured?_object_congr {entries entries' : List (Key × Value)}
    (h : entries'.length = entries.length) (m : Measure) :
    (Value.object entries').measured? m = (Value.object entries).measured? m := by
  cases m <;> simp [Value.measured?, Value.number?, Value.length?, h]

theorem measured?_eq_of_rearranged {w' w : Value} (h : Rearranged w' w) (m : Measure) :
    w'.measured? m = w.measured? m := by
  cases h with
  | scalar _ => rfl
  | array ps _ => exact measured?_array_congr (by simp) m
  | object ps hp _ => exact measured?_object_congr (by simp [hp.length_eq]) m

theorem measured?_eq_of_shuffled {ty : TypeRef} {w' w : Value} (h : types.Shuffled ty w' w)
    (m : Measure) : w'.measured? m = w.measured? m := by
  induction h with
  | refl _ _ => rfl
  | free _ h => exact measured?_eq_of_rearranged h m
  | array ps _ _ => exact measured?_array_congr (by simp) m
  | dict ps hp _ _ => exact measured?_object_congr (by simp [hp.length_eq]) m
  | typedef _ _ ih => exact ih
  | struct _ ps _ _ _ => exact measured?_object_congr (by simp) m

theorem brokenBound?_eq_of_shuffled {ty : TypeRef} {w' w : Value} (h : types.Shuffled ty w' w)
    (attr : Option Attributes) : brokenBound? attr w' = brokenBound? attr w := by
  simp only [brokenBound?, Bound.accepts, measured?_eq_of_shuffled h]

/-- Where every builtin type tells its values by their texts, no value is taken as it is. -/
theorem reordered_of_shuffled {ty : TypeRef} {w' w : Value} (h : types.Shuffled ty w' w)
    (ha : ∀ b, types.Reaches ty (.builtin b) → b.Textual) : types.Reordered ty w' w := by
  induction h with
  | refl ty w => exact .refl ty w
  | free hb _ => exact absurd (ha _ .refl) hb
  | array ps _ ih =>
    refine .array ps ?_
    intro p hp
    exact ih p hp fun b hb => ha b (Types.Uses.reaches .element hb)
  | dict ps hperm _ ih =>
    refine .dict ps hperm ?_
    intro p hp
    exact ih p hp fun b hb => ha b (Types.Uses.reaches .value hb)
  | typedef hd _ ih =>
    exact .typedef hd (ih fun b hb => ha b (Types.Uses.reaches (.typedef hd) hb))
  | struct hd ps hm _ ih =>
    refine .struct hd ps hm ?_
    intro p hp
    have hitem := Types.hasItem_of_mem_walk (hm p hp)
    exact ih p hp fun b hb => ha b (Types.Uses.reaches (.member hd hitem) hb)

/-! ## Lists side by side -/

/-- What two lists and what is found for every pair of them, in one list. -/
theorem exists_rows {α β γ : Type} {as : List α} {bs : List β} {P : α → β → γ → Prop}
    (hl : as.length = bs.length) (h : ∀ {a b}, (a, b) ∈ as.zip bs → ∃ c, P a b c) :
    ∃ rows : List (α × β × γ), as = rows.map (fun r => r.1) ∧ bs = rows.map (fun r => r.2.1)
      ∧ ∀ r ∈ rows, P r.1 r.2.1 r.2.2 := by
  induction as generalizing bs with
  | nil => exact ⟨[], rfl, List.eq_nil_of_length_eq_zero hl.symm, by simp⟩
  | cons a as ih =>
    cases bs with
    | nil => simp at hl
    | cons b bs =>
      obtain ⟨c, hc⟩ := h List.mem_cons_self
      obtain ⟨rows, rfl, rfl, hrows⟩ := ih (Nat.succ.inj hl) fun hm => h (List.mem_cons_of_mem _ hm)
      exact ⟨(a, b, c) :: rows, rfl, rfl, List.forall_mem_cons.2 ⟨hc, hrows⟩⟩

theorem mem_zip_map {α β γ : Type} {f : γ → α} {g : γ → β} {rows : List γ} {a : α} {b : β}
    (h : (a, b) ∈ (rows.map f).zip (rows.map g)) : ∃ r ∈ rows, a = f r ∧ b = g r := by
  rw [List.zip_map'] at h
  obtain ⟨r, hr, he⟩ := List.mem_map.1 h
  cases he
  exact ⟨r, hr, rfl, rfl⟩

theorem mem_zip_map_left {α β γ : Type} {f : α → γ} {as : List α} {bs : List β} {a : α} {b : β}
    (h : (a, b) ∈ as.zip bs) : (f a, b) ∈ (as.map f).zip bs := by
  rw [List.zip_map_left]
  exact List.mem_map_of_mem (f := Prod.map f id) h

/-! ## Arrays, dicts and structs -/

theorem shuffle_array {element : TypeRef} {attr : Option Attributes} {ps : List (Value × Value)}
    {ws : List Value} (hl : ps.length = ws.length)
    (h : ∀ {p w}, (p, w) ∈ ps.zip ws →
      ∃ w', Reads types (.site element attr) p.1 w' ∧ types.Shuffled element w' w) :
    ∃ w', Reads types (.type (.array element attr)) (.array (ps.map Prod.fst)) w'
      ∧ types.Shuffled (.array element attr) w' (.array ws) := by
  obtain ⟨rows, rfl, rfl, hrows⟩ := exists_rows hl h
  refine ⟨.array (rows.map fun r => r.2.2), .array rfl (by simp) fun hm => ?_, ?_⟩
  · rw [List.map_map] at hm
    obtain ⟨r, hr, rfl, rfl⟩ := mem_zip_map hm
    exact (hrows r hr).1
  · have hre : types.Shuffled (.array element attr) (.array _) (.array _) :=
      .array (rows.map fun r => (r.2.2, r.2.1)) fun p hp => by
        obtain ⟨r, hr, rfl⟩ := List.mem_map.1 hp
        exact (hrows r hr).2
    simpa only [List.map_map, Function.comp_def] using hre

theorem shuffle_dict {value : TypeRef} {attr keyAttr : Option Attributes} {key : Option TypeRef}
    {entries : List (Key × Value)} {ps : List (Key × Value × Value)} {pairs : List (Value × Value)}
    (hn : (Entries.keys (keyed pairs)).Nodup)
    (hp : entries.Perm (ps.map fun p => (p.1, p.2.1))) (hl : ps.length = pairs.length)
    (h : ∀ {p q}, (p, q) ∈ ps.zip pairs → ∃ w',
      Reads types (.site (key.getD (.builtin .string)) keyAttr) (.ofKey p.1) q.1
        ∧ Reads types (.site value attr) p.2.1 w' ∧ types.Shuffled value w' q.2) :
    ∃ w', Reads types (.type (.dict value attr key keyAttr)) (.object entries) w'
      ∧ types.Shuffled (.dict value attr key keyAttr) w'
        (.object (Entries.ofList (keyed pairs))) := by
  obtain ⟨rows, rfl, rfl, hrows⟩ := exists_rows hl h
  rw [List.map_map] at hp
  obtain ⟨rows', hperm, rfl⟩ := exists_perm_map hp
  have hkeyed : ∀ rows : List ((Key × Value × Value) × (Value × Value) × Value),
      keyed (rows.map fun r => (r.2.1.1, r.2.2)) = rows.map fun r => (keyOf r.2.1.1, r.2.2) := by
    intro rows
    rw [keyed, List.map_map]
    rfl
  have hread : Reads types (.type (.dict value attr key keyAttr))
      (.object (rows'.map fun r => (r.1.1, r.1.2.1)))
      (.object (Entries.ofList (keyed (rows'.map fun r => (r.2.1.1, r.2.2))))) := by
    refine .dict rfl (by simp) (fun hm => ?_) fun hm => ?_
    · obtain ⟨r, hr, rfl, rfl⟩ := mem_zip_map hm
      exact (hrows r (hperm.subset hr)).1
    · obtain ⟨r, hr, rfl, rfl⟩ := mem_zip_map hm
      exact (hrows r (hperm.subset hr)).2.1
  have hn' : (Entries.keys (keyed (rows'.map fun r => (r.2.1.1, r.2.2)))).Nodup := by
    have hkeys : Entries.keys (keyed (rows.map fun r => r.2.1))
        = Entries.keys (keyed (rows.map fun r => (r.2.1.1, r.2.2))) := by
      simp [keyed, Entries.keys, Function.comp_def]
    rw [hkeys] at hn
    exact (((hperm.map _).map _).map _).nodup_iff.2 hn
  have hre : types.Shuffled (.dict value attr key keyAttr)
      (.object (keyed (rows'.map fun r => (r.2.1.1, r.2.2)))) (.object _) :=
    .dict (rows.map fun r => (keyOf r.2.1.1, r.2.2, r.2.1.2))
      (by
        rw [List.map_map, hkeyed]
        exact hperm.map _)
      fun p hp => by
        obtain ⟨r, hr, rfl⟩ := List.mem_map.1 hp
        exact (hrows r hr).2.2
  rw [Entries.ofList_eq_self hn'] at hread
  refine ⟨_, hread, ?_⟩
  rw [Entries.ofList_eq_self hn]
  simpa only [List.map_map, Function.comp_def, keyed] using hre

/-- The members that an object has, with two values for each. -/
def presentTwice (members : List Member) (ps : List (Key × Value × Value)) :
    List (Member × Value × Value) :=
  members.filterMap fun m => (Entries.get? (.text m.name) ps).map fun v => (m, v)

theorem present_map (f : Value × Value → Value) (members : List Member)
    (ps : List (Key × Value × Value)) :
    present members (ps.map fun p => (p.1, f p.2))
      = (presentTwice members ps).map fun p => (p.1, f p.2) := by
  rw [present, presentTwice, List.map_filterMap]
  apply List.filterMap_congr
  intro m _
  rw [Entries.get?_map, Option.map_map, Option.map_map]
  rfl

theorem mem_presentTwice {members : List Member} {ps : List (Key × Value × Value)}
    {p : Member × Value × Value} (h : p ∈ presentTwice members ps) :
    p.1 ∈ members ∧ (.text p.1.name, p.2) ∈ ps := by
  obtain ⟨m, hm, he⟩ := List.mem_filterMap.1 h
  obtain ⟨v, hv, rfl⟩ := Option.map_eq_some_iff.1 he
  exact ⟨hm, Entries.mem_of_get? hv⟩

theorem named_map {γ : Type} (f : γ → Member) (g : γ → Value) (rows : List γ) :
    named (rows.map f) (rows.map g) = rows.map fun r => (.text (f r).name, g r) := by
  rw [named, List.zip_map', List.map_map]
  rfl

theorem shuffle_struct {name : String} {s : Struct} {entries : List (Key × Value)}
    {ps : List (Key × Value × Value)} {ws : List Value}
    (hd : types.get? name = some (.struct s)) (hm : ((types.members s).map Member.name).Nodup)
    (hn : (Entries.keys ps).Nodup)
    (hp : entries.Perm (ps.map fun p => (p.1, p.2.1))) (hu : s.union = true → ps.length = 1)
    (hk : ∀ k ∈ Entries.keys ps, ∃ m ∈ types.members s, k = .text m.name)
    (ho : ∀ m ∈ types.members s, .text m.name ∉ Entries.keys ps →
      m.optional = true ∨ s.union = true)
    (hl : (presentTwice (types.members s) ps).length = ws.length)
    (h : ∀ {p w}, (p, w) ∈ (presentTwice (types.members s) ps).zip ws →
      ∃ w', Reads types (.site p.1.type p.1.attr) p.2.1 w' ∧ types.Shuffled p.1.type w' w) :
    ∃ w', Reads types (.type (.user name)) (.object entries) w'
      ∧ types.Shuffled (.user name) w'
        (.object (named ((presentTwice (types.members s) ps).map Prod.fst) ws)) := by
  obtain ⟨rows, hrow, rfl, hrows⟩ := exists_rows hl h
  have hkeys : (Entries.keys entries).Perm (Entries.keys ps) := by
    have := hp.map Prod.fst
    rwa [List.map_map] at this
  have hkn : (Entries.keys (ps.map fun p => (p.1, p.2.1))).Nodup := by
    rw [Entries.keys, List.map_map]
    exact hn
  have hpres : present (types.members s) entries = rows.map fun r => (r.1.1, r.1.2.1) := by
    rw [present_congr fun m _ => Entries.get?_of_perm hp hkn, present_map Prod.fst, hrow,
      List.map_map]
    rfl
  have hread : Reads types (.type (.user name)) (.object entries)
      (.object (Entries.ofList (named ((present (types.members s) entries).map Prod.fst)
        (rows.map fun r => r.2.2)))) := by
    refine .struct hd rfl (fun hut => ?_) (fun k hmem => hk k (hkeys.subset hmem))
      (fun m hmem hnot => ho m hmem fun hin => hnot (hkeys.symm.subset hin)) ?_ ?_
    · rw [hp.length_eq, List.length_map, hu hut]
    · rw [hpres, List.length_map, List.length_map]
    · rw [hpres]
      intro p w hmem
      obtain ⟨r, hr, rfl, rfl⟩ := mem_zip_map hmem
      exact (hrows r hr).1
  have hfst : (present (types.members s) entries).map Prod.fst = rows.map fun r => r.1.1 := by
    rw [hpres, List.map_map]
    rfl
  have hnodup := nodup_present hm entries
  rw [hfst] at hread hnodup
  rw [ofList_named (by simp) hnodup] at hread
  have hre := Types.Shuffled.struct hd (rows.map fun r => (r.1.1, r.2.2, r.2.1))
    (fun p hp => by
      obtain ⟨r, hr, rfl⟩ := List.mem_map.1 hp
      have hin : r.1 ∈ presentTwice (types.members s) ps := hrow ▸ List.mem_map_of_mem hr
      exact (mem_presentTwice hin).1)
    fun p hp => by
      obtain ⟨r, hr, rfl⟩ := List.mem_map.1 hp
      exact (hrows r hr).2
  refine ⟨_, hread, ?_⟩
  rw [hrow, List.map_map, named_map, named_map]
  simpa only [List.map_map, Function.comp_def] using hre

/-- A rearranged value is read where the value is, as the same up to the order that it keeps. -/
theorem Reads.shuffle (hs : types.Sound) {p : Place} {v' v w : Value} (h : Reads types p v w)
    (hk : KeysSound types p.ty) (hv : v.Throughout Writable) (hr : Rearranged v' v) :
    ∃ w', Reads types p v' w' ∧ types.Shuffled p.ty w' w := by
  induction h generalizing v' with
  | null han hnull =>
    refine ⟨.null, .null han ?_, .refl _ _⟩
    rw [hr.isNull_eq, hr.isNullText_eq]
    exact hnull
  | value hnull ht _ hwn hb ih =>
    obtain ⟨w', hw, hre⟩ := ih hk hv hr
    refine ⟨w', .value ?_ ?_ hw ?_ ?_, hre⟩
    · rw [hr.isNull_eq, hnull]
    · rwa [hr.isNullText_eq]
    · rw [isNull_eq_of_shuffled hre, hwn]
    · rw [brokenBound?_eq_of_shuffled hre, hb]
  | typedef hd hc _ ih =>
    obtain ⟨w', hw, hre⟩ := ih (hs.typedefKeys hd) hv hr
    exact ⟨w', .typedef hd hc hw, .typedef hd hre⟩
  | @builtin b v w h =>
    by_cases hb : b.Textual
    · have hscalar := Builtin.isContainer_of_convert? hb h
      rw [hr.eq_of_scalar hscalar]
      exact ⟨_, .builtin h, .refl _ _⟩
    · rw [Builtin.convert?_of_not_textual hb] at h
      obtain rfl := Option.some.inj h
      exact ⟨v', .builtin (Builtin.convert?_of_not_textual hb), .free hb hr⟩
  | @array element attr v items ws hi hl h ih =>
    rcases hr.items? hi with rfl | ⟨ps, rfl, rfl, hps⟩
    · exact ⟨_, .array hi hl h, .refl _ _⟩
    · apply shuffle_array (by simpa using hl)
      intro p w hm
      have hin := (List.of_mem_zip hm).1
      exact ih (mem_zip_map_left hm) hk (hv.items? hi _ (List.mem_map_of_mem hin)) (hps p hin)
  | @dict value attr key keyAttr v entries pairs hi hl hkr h _ ih =>
    rcases hr.entries? hi with rfl | ⟨entries', ps, rfl, rfl, hp, hps⟩
    · exact ⟨_, .dict hi hl hkr h, .refl _ _⟩
    · have hn := Value.nodup_texts_entries? hv hi
      rw [← texts_keyed hl (isKeyType_of_keysSound hk) hkr] at hn
      apply shuffle_dict (Value.nodup_keys_of_texts hn) hp (by simpa using hl)
      intro p q hm
      have hin := (List.of_mem_zip hm).1
      have hmem := mem_zip_map_left (f := fun p : Key × Value × Value => (p.1, p.2.2)) hm
      obtain ⟨w', hw, hre⟩ := ih hmem (keysSound_value hk)
        (hv.entries? hi _ (List.mem_map_of_mem hin)) (hps p hin)
      exact ⟨w', hkr hmem, hw, hre⟩
  | enum hd he =>
    rw [hr.eq_of_scalar rfl]
    exact ⟨_, .enum hd he, .refl _ _⟩
  | @struct name s v entries ws hd hi hu hkn ho hl h ih =>
    rcases hr.entries? hi with rfl | ⟨entries', ps, rfl, rfl, hp, hps⟩
    · exact ⟨_, .struct hd hi hu hkn ho hl h, .refl _ _⟩
    · have hkeys : Entries.keys (ps.map fun p => (p.1, p.2.2)) = Entries.keys ps := by
        rw [Entries.keys, List.map_map]
        rfl
      have hn := Value.nodup_keys_of_texts (Value.nodup_texts_entries? hv hi)
      have hpres := present_map Prod.snd (types.members s) ps
      have hfst : (present (types.members s) (ps.map fun p => (p.1, p.2.2))).map Prod.fst
          = (presentTwice (types.members s) ps).map Prod.fst := by
        rw [hpres, List.map_map]
        rfl
      have hnodup := nodup_present (hs.nodup hd) (ps.map fun p => (p.1, p.2.2))
      rw [ofList_named (by rw [List.length_map, hl]) hnodup, hfst]
      rw [hkeys] at hkn ho hn
      rw [hpres, List.length_map] at hl
      refine shuffle_struct hd (hs.nodup hd) hn hp (by simpa using hu) hkn ho hl
        fun {p w} hm => ?_
      obtain ⟨hmem, hin⟩ := mem_presentTwice (List.of_mem_zip hm).1
      have hzip := mem_zip_map_left (f := fun p : Member × Value × Value => (p.1, p.2.2)) hm
      rw [← hpres] at hzip
      exact ih hzip (hs.memberKeys hd hmem) (hv.entries? hi _ (List.mem_map_of_mem hin))
        (hps _ hin)

/-- A rearranged value is read where the value is, as the same up to the order of dicts. -/
theorem Reads.rearrange (hs : types.Sound) {p : Place} {v' v w : Value} (h : Reads types p v w)
    (hk : KeysSound types p.ty) (ha : ∀ b, types.Reaches p.ty (.builtin b) → b.Textual)
    (hv : v.Throughout Writable) (hr : Rearranged v' v) :
    ∃ w', Reads types p v' w' ∧ types.Reordered p.ty w' w := by
  obtain ⟨w', hw, hshuffled⟩ := h.shuffle hs hk hv hr
  exact ⟨w', hw, reordered_of_shuffled hshuffled ha⟩

end Validate

end SchemaLang
