import Mathlib.Algebra.Order.BigOperators.Group.List
import SchemaLang.Proofs.Query.Addresses
import SchemaLang.Proofs.Query.RoundTrip
import SchemaLang.Proofs.Value.Rearranged

/-!
# When a query is read as what has been written

A point in a key is not coded, so where a query is read the key is cut there.  The texts of a
value and those of what its query is read as can be counted together with the lengths of their
paths: no way gets shorter by being written and read, and one with a point in a key gets longer.
So a value without null and without empty containers comes back, up to the order of its members,
exactly if no key of it contains a point.

* `Rearranged.hasText_iff`: the order of the members does not matter to a path.
* `Holds.sum_length_eq`: two lists of leaves that one value has are equally long in all.
* `decode_encode_iff`: the values that come back.
-/

namespace SchemaLang

namespace Value

theorem asTexts_eq_self {v : Value} (h : v.Throughout TextsOnly) : asTexts id v = v := by
  induction v with
  | scalar v hs =>
    have ht := h.self
    cases v with
    | string s => rfl
    | array items => simp [isContainer] at hs
    | object entries => simp [isContainer] at hs
    | _ => exact ht.elim
  | array items ih =>
    rw [asTexts_array h.self, List.map_congr_left (g := id) fun v hv => ih v hv (h.item v hv),
      List.map_id]
  | object entries ih =>
    obtain ⟨hne, -, hnull⟩ := h.self
    rw [asTexts_object_id hne, List.map_congr_left (g := id), List.map_id]
    rintro ⟨k, v⟩ he
    have hk : Key.text k.toText = k := by
      cases k with
      | null => exact absurd (List.mem_map_of_mem (f := Prod.fst) he) hnull
      | text s => rfl
    rw [ih _ he (h.entry _ he), hk, id_eq]

theorem Rearranged.hasText_iff {v' v : Value} (h : Rearranged v' v) (ht : v.Throughout TextsOnly)
    {path : List Step} {s : String} : v'.HasText path s ↔ v.HasText path s := by
  induction h generalizing path with
  | scalar _ => rfl
  | array ps _ ih =>
    cases path with
    | nil => simp [hasText_nil]
    | cons step path =>
      rw [hasText_cons, hasText_cons]
      cases step with
      | member k => rfl
      | item i =>
        rw [child?, child?, List.getElem?_map, List.getElem?_map]
        cases hp : ps[i]? with
        | none => rfl
        | some p =>
          have hm := List.mem_of_getElem? hp
          exact ih p hm (ht.item _ (List.mem_map_of_mem hm))
  | object ps hp _ ih =>
    cases path with
    | nil => simp [hasText_nil]
    | cons step path =>
      rw [hasText_cons, hasText_cons]
      cases step with
      | item i => rfl
      | member k =>
        have hn : (Entries.keys (ps.map fun p => (p.1, p.2.1))).Nodup := by
          simpa [Entries.keys, Function.comp_def] using ht.self.2.1
        rw [child?, child?, Entries.get?_of_perm hp hn, Entries.get?_map Prod.fst,
          Entries.get?_map Prod.snd]
        cases hg : Entries.get? k ps with
        | none => rfl
        | some p =>
          have hm := Entries.mem_of_get? hg
          exact ih _ hm (ht.entry _ (List.mem_map_of_mem hm))

end Value

namespace Query

open Value (TextsOnly Writable Rearranged asTexts members texts)

/-! ## Lengths -/

theorem length_of_address? {way : List String} {v : Value} {path : List Value.Step}
    (h : address? way v = some path) : path.length = way.length := by
  induction way generalizing v path with
  | nil =>
    cases h
    rfl
  | cons segment way ih =>
    obtain ⟨step, w, rest, -, -, hr, rfl⟩ := address?_cons.1 h
    rw [List.length_cons, List.length_cons, ih hr]

variable {ls ls' : List Leaf} {v v' : Value}

theorem Holds.mem_addresses_iff (h : Holds ls v) {a : Option (List Value.Step)} :
    a ∈ ls.map (fun l => address? l.way v) ↔ ∃ path s, a = some path ∧ v.HasText path s := by
  constructor
  · intro ha
    obtain ⟨l, hl, rfl⟩ := List.mem_map.1 ha
    obtain ⟨path, hp, ht⟩ := h.found l hl
    exact ⟨path, l.text, hp, ht⟩
  · rintro ⟨path, s, rfl, ht⟩
    obtain ⟨l, hl, hp, -⟩ := h.only path s ht
    exact List.mem_map.2 ⟨l, hl, hp⟩

theorem Holds.map_length (h : Holds ls v) : ls.map (fun l => l.way.length)
    = (ls.map fun l => address? l.way v).map fun a => (a.getD []).length := by
  rw [List.map_map]
  refine List.map_congr_left fun l hl => ?_
  obtain ⟨path, hp, -⟩ := h.found l hl
  rw [Function.comp_apply, hp, Option.getD_some, length_of_address? hp]

theorem Holds.sum_length_eq (h : Holds ls v) (h' : Holds ls' v')
    (hv : ∀ path s, v.HasText path s ↔ v'.HasText path s) :
    (ls.map fun l => l.way.length).sum = (ls'.map fun l => l.way.length).sum := by
  have hperm : (ls.map fun l => address? l.way v).Perm (ls'.map fun l => address? l.way v') := by
    refine (List.perm_ext_iff_of_nodup h.distinct h'.distinct).2 fun a => ?_
    rw [h.mem_addresses_iff, h'.mem_addresses_iff]
    simp only [hv]
  rw [h.map_length, h'.map_length]
  exact (hperm.map _).sum_eq

/-! ## Leaves that have been written and read -/

/-- What a leaf is read as. -/
def Leaf.reread (l : Leaf) : Leaf := ⟨Query.way (keyText l.way).toList, l.text⟩

theorem queryLeaves_encode (h : HasParts v) :
    queryLeaves (encode v) = (leaves v).map Leaf.reread := by
  rw [queryLeaves, splitAt_encode h, leavesOf, List.filterMap_map, ← List.filterMap_eq_map]
  refine List.filterMap_congr fun l _ => ?_
  rw [Function.comp_apply, leaf?, ofChars_pair, Function.comp_apply]
  simp only [unquote_encode, Leaf.reread]

/-- The pieces that the segments of a way are cut into. -/
theorem length_reread {l : Leaf} (h : l.way ≠ []) : l.reread.way.length
    = (l.way.map fun s => (Text.splitAt '.' (Text.Percent.encode s).toList).length).sum := by
  rw [Leaf.reread, Query.way, toList_keyText, Text.splitAt_intercalate_flatMap (by simpa using h),
    List.length_map, List.length_flatMap, List.map_map]
  rfl

theorem length_le_reread {l : Leaf} (h : l.way ≠ []) : l.way.length ≤ l.reread.way.length := by
  have hone : l.way.length = (l.way.map fun _ => 1).sum := by simp
  rw [length_reread h, hone]
  exact List.sum_le_sum fun s _ => List.length_pos_iff.2 (Text.splitAt_ne_nil _ _)

theorem length_lt_reread {l : Leaf} {segment : String} (hs : segment ∈ l.way)
    (hp : '.' ∈ segment.toList) : l.way.length < l.reread.way.length := by
  have hone : l.way.length = (l.way.map fun _ => 1).sum := by simp
  rw [length_reread (List.ne_nil_of_mem hs), hone]
  refine List.sum_lt_sum _ _ (fun s _ => ?_) ⟨segment, hs, ?_⟩
  · exact List.length_pos_iff.2 (Text.splitAt_ne_nil _ _)
  · exact Text.one_lt_length_splitAt (Text.Percent.point_mem_encode hp)

/-! ## Values that come back -/

theorem hasParts_of_textsOnly (hc : v.isContainer = true) (h : TextsOnly v) : HasParts v := by
  cases v with
  | array items => exact h
  | object entries => exact h.1
  | _ => simp [Value.isContainer] at hc

theorem rearranged_of_textsOnly (h : v.Throughout TextsOnly) :
    Rearranged (asTexts sortByName v) v := by
  have hr := Value.rearranged_asTexts v
  rwa [Value.asTexts_eq_self h] at hr

/-- What a query with a point in a key is read as has longer paths in all. -/
theorem pointless_of_decode_encode (hp : HasParts v) (ht : v.Throughout TextsOnly)
    (hw : v.Throughout Writable) (hn : v.Throughout Named) (h : decode (encode v) = .ok v')
    (hr : Rearranged v' v) : Pointless (leaves v) := by
  have hne : v' ≠ .object [] := by
    rintro rfl
    cases hr with
    | scalar hs => simp [Value.isContainer] at hs
    | object ps hperm _ => exact hp (by simpa using hperm.symm.eq_nil)
  have hread := (decode_holds h hne).2.1
  rw [queryLeaves_encode hp] at hread
  have hput := (holds_nil.placeAll (fun h => absurd rfl h) (placeAll_leaves hw hn)).1
  have hsum := hput.sum_length_eq hread fun path s =>
    ((rearranged_of_textsOnly ht).hasText_iff ht).trans (hr.hasText_iff ht).symm
  rw [List.nil_append, List.map_map] at hsum
  intro l hl segment hs hpoint
  refine absurd hsum (Nat.ne_of_lt (List.sum_lt_sum _ _ (fun l hl => ?_) ⟨l, hl, ?_⟩))
  · exact length_le_reread (way_ne_nil hp l hl)
  · exact length_lt_reread hs hpoint

/-- An array or object of texts that has no empty container in it comes back from a query, with
its members in some order, exactly if no key in it contains a point. -/
theorem decode_encode_iff (hc : v.isContainer = true) (ht : v.Throughout TextsOnly)
    (hw : v.Throughout Writable) (hn : v.Throughout Named) :
    (∃ v', decode (encode v) = .ok v' ∧ Rearranged v' v) ↔ v.Throughout Unpointed := by
  have hp := hasParts_of_textsOnly hc ht.self
  constructor
  · rintro ⟨v', h, hr⟩
    exact pointless_leaves_iff.1 (pointless_of_decode_encode hp ht hw hn h hr)
  · intro hu
    exact ⟨_, decode_encode_container hp hw hn hu, rearranged_of_textsOnly ht⟩

/-- Items under a key that has to be coded. -/
def coded : Value := .object [(.text "a&b=c", .array [.string "1", .string ""])]

theorem throughout_coded {P : Value → Prop} (ho : P coded)
    (ha : P (.array [.string "1", .string ""])) (hs : ∀ s, P (.string s)) :
    coded.Throughout P := by
  refine .object ho (List.forall_mem_singleton.2 (.array ha fun v hv => ?_))
  simp only [List.mem_cons, List.not_mem_nil, or_false] at hv
  rcases hv with rfl | rfl
  · exact .scalar rfl (hs _)
  · exact .scalar rfl (hs _)

theorem decode_encode_iff_coded : coded.isContainer = true ∧ coded.Throughout TextsOnly
    ∧ coded.Throughout Writable ∧ coded.Throughout Named ∧ coded.Throughout Unpointed
    ∧ ∃ v', decode (encode coded) = .ok v' ∧ Rearranged v' coded := by
  have ht : coded.Throughout TextsOnly :=
    throughout_coded ⟨by simp, by decide, by decide⟩ (by simp [TextsOnly]) fun _ => trivial
  have hw : coded.Throughout Writable :=
    throughout_coded (by simp [coded, Writable, texts]) (by simp [Writable]) fun _ => trivial
  have hn : coded.Throughout Named :=
    throughout_coded (by simp [coded, Named, texts, Key.toText]) trivial fun _ => trivial
  have hu : coded.Throughout Unpointed :=
    throughout_coded (by simp [coded, Unpointed, texts, Key.toText]) trivial fun _ => trivial
  exact ⟨rfl, ht, hw, hn, hu, (decode_encode_iff rfl ht hw hn).2 hu⟩

/-- An object whose member has a point in its key. -/
def pointed : Value := .object [(.text "a.b", .string "1")]

/-- The member is read as a member of a member. -/
theorem decode_encode_pointed : pointed.isContainer = true ∧ pointed.Throughout TextsOnly
    ∧ pointed.Throughout Writable ∧ pointed.Throughout Named
    ∧ decode (encode pointed) = .ok (.object [(.text "a", .object [(.text "b", .string "1")])])
    ∧ ¬∃ v', decode (encode pointed) = .ok v' ∧ Rearranged v' pointed := by
  have ht : pointed.Throughout TextsOnly :=
    .object ⟨by simp, by decide, by decide⟩ (List.forall_mem_singleton.2 (.scalar rfl trivial))
  have hw : pointed.Throughout Writable :=
    .object (by simp [Writable, texts]) (List.forall_mem_singleton.2 (.scalar rfl trivial))
  have hn : pointed.Throughout Named :=
    .object (by simp [Named, texts, Key.toText])
      (List.forall_mem_singleton.2 (.scalar rfl trivial))
  have hd : decode (encode pointed)
      = .ok (.object [(.text "a", .object [(.text "b", .string "1")])]) := by rfl
  refine ⟨rfl, ht, hw, hn, hd, ?_⟩
  rintro ⟨v', h, hr⟩
  rw [hd] at h
  have htext : v'.HasText [.member (.text "a.b")] "1" := (hr.hasText_iff ht).2 rfl
  rw [← Except.ok.inj h] at htext
  simp [Value.HasText, Value.lookup?, Value.child?, Entries.get?] at htext

end Query

end SchemaLang
