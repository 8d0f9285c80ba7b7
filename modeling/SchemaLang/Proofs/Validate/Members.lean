import Mathlib.Data.List.Nodup
import SchemaLang.Proofs.Entries
import SchemaLang.Proofs.Validate.Reads

/-!
# The members that an object has

`present` finds the members of a struct that an object has, in the order of the struct, and `named`
puts the values read for them under their names again.

* `perm_present`: an object with no other keys has its entries in the order of the members.
* `ofList_named`: members of different names do not come in each other's way.
* `present_named`: the members that values have been named after are found again.
-/

namespace SchemaLang

namespace Validate

theorem mem_present {p : Member × Value} {members : List Member} {entries : List (Key × Value)} :
    p ∈ present members entries
      ↔ p.1 ∈ members ∧ Entries.get? (.text p.1.name) entries = some p.2 := by
  simp only [present, List.mem_filterMap, Option.map_eq_some_iff]
  constructor
  · rintro ⟨m, hm, v, hv, rfl⟩
    exact ⟨hm, hv⟩
  · rintro ⟨hm, hv⟩
    exact ⟨p.1, hm, p.2, hv, rfl⟩

theorem present_cons (m : Member) (members : List Member) (entries : List (Key × Value)) :
    present (m :: members) entries
      = match Entries.get? (.text m.name) entries with
        | none => present members entries
        | some v => (m, v) :: present members entries := by
  rw [present, List.filterMap_cons]
  cases Entries.get? (.text m.name) entries <;> rfl

theorem present_congr {members : List Member} {entries entries' : List (Key × Value)}
    (h : ∀ m ∈ members,
      Entries.get? (.text m.name) entries = Entries.get? (.text m.name) entries') :
    present members entries = present members entries' :=
  List.filterMap_congr fun m hm => by rw [h m hm]

theorem sublist_present (members : List Member) (entries : List (Key × Value)) :
    List.Sublist ((present members entries).map Prod.fst) members := by
  induction members with
  | nil => exact List.Sublist.refl _
  | cons m members ih =>
    rw [present_cons]
    cases Entries.get? (.text m.name) entries with
    | none => exact ih.cons m
    | some v => exact ih.cons_cons m

theorem nodup_present {members : List Member} (hn : (members.map Member.name).Nodup)
    (entries : List (Key × Value)) :
    (((present members entries).map Prod.fst).map Member.name).Nodup :=
  hn.sublist ((sublist_present members entries).map Member.name)

/-- An object without other keys has its entries in the order of the members. -/
theorem perm_present {members : List Member} {entries : List (Key × Value)}
    (hn : (members.map Member.name).Nodup) (he : (Entries.keys entries).Nodup)
    (hk : ∀ k ∈ Entries.keys entries, ∃ m ∈ members, k = .text m.name) :
    entries.Perm ((present members entries).map fun p => (.text p.1.name, p.2)) := by
  have hp : ((present members entries).map fun p => (Key.text p.1.name, p.2)).Nodup := by
    have h := (nodup_present hn entries).map (f := Key.text) fun a b h => Key.text.inj h
    rw [List.map_map, List.map_map] at h
    refine List.Nodup.of_map Prod.fst ?_
    rwa [List.map_map]
  refine (List.perm_ext_iff_of_nodup (List.Nodup.of_map Prod.fst he) hp).2 fun e => ?_
  constructor
  · intro h
    obtain ⟨k, v⟩ := e
    obtain ⟨m, hm, rfl⟩ := hk k (List.mem_map_of_mem (f := Prod.fst) h)
    exact List.mem_map.2 ⟨(m, v), mem_present.2 ⟨hm, Entries.get?_of_mem he h⟩, rfl⟩
  · intro h
    obtain ⟨p, hp, rfl⟩ := List.mem_map.1 h
    exact Entries.mem_of_get? (mem_present.1 hp).2

theorem length_present {members : List Member} {entries : List (Key × Value)}
    (hn : (members.map Member.name).Nodup) (he : (Entries.keys entries).Nodup)
    (hk : ∀ k ∈ Entries.keys entries, ∃ m ∈ members, k = .text m.name) :
    (present members entries).length = entries.length := by
  rw [(perm_present hn he hk).length_eq, List.length_map]

/-- An object with one entry, which is a member, has one member. -/
theorem length_present_of_length_eq_one {members : List Member} {entries : List (Key × Value)}
    (hn : (members.map Member.name).Nodup)
    (hk : ∀ k ∈ Entries.keys entries, ∃ m ∈ members, k = .text m.name) (hl : entries.length = 1) :
    (present members entries).length = 1 := by
  have he : (Entries.keys entries).Nodup := by
    obtain ⟨e, rfl⟩ := List.length_eq_one_iff.1 hl
    exact List.nodup_singleton _
  rw [length_present hn he hk, hl]

theorem keys_named {members : List Member} {ws : List Value} (hl : members.length = ws.length) :
    Entries.keys (named members ws) = members.map fun m => .text m.name := by
  obtain ⟨ps, rfl, rfl⟩ := exists_unzip hl
  rw [Entries.keys, named, List.zip_map', List.map_map, List.map_map, List.map_map]
  rfl

theorem nodup_keys_named {members : List Member} {ws : List Value}
    (hl : members.length = ws.length) (hn : (members.map Member.name).Nodup) :
    (Entries.keys (named members ws)).Nodup := by
  have h := hn.map (f := Key.text) fun a b h => Key.text.inj h
  rw [List.map_map] at h
  rw [keys_named hl]
  exact h

theorem ofList_named {members : List Member} {ws : List Value}
    (hl : members.length = ws.length) (hn : (members.map Member.name).Nodup) :
    Entries.ofList (named members ws) = named members ws :=
  Entries.ofList_eq_self (nodup_keys_named hl hn)

theorem exists_of_mem_zip_map_fst {α β γ : Type} {l : List (α × β)} {cs : List γ} {a : α} {c : γ}
    (h : (a, c) ∈ (l.map Prod.fst).zip cs) : ∃ b, ((a, b), c) ∈ l.zip cs := by
  rw [List.zip_map_left] at h
  obtain ⟨⟨p, c'⟩, hm, he⟩ := List.mem_map.1 h
  cases he
  exact ⟨p.2, hm⟩

/-- Some members of a struct, in its order, are found where their names are put. -/
theorem present_named {members ms : List Member} {us : List Value}
    (hn : (members.map Member.name).Nodup) (hs : List.Sublist ms members)
    (hl : ms.length = us.length) : present members (named ms us) = ms.zip us := by
  induction members generalizing ms us with
  | nil =>
    rw [List.sublist_nil] at hs
    rw [hs]
    rfl
  | cons m members ih =>
    have hc := List.nodup_cons.1 hn
    rw [present_cons]
    rcases List.sublist_cons_iff.1 hs with hs | ⟨rest, rfl, hr⟩
    · have hg : Entries.get? (.text m.name) (named ms us) = none := by
        refine Entries.get?_eq_none_iff.2 fun hm => hc.1 ?_
        rw [keys_named hl, List.mem_map] at hm
        obtain ⟨m', hm', he⟩ := hm
        exact Key.text.inj he ▸ List.mem_map_of_mem (f := Member.name) (hs.subset hm')
      rw [hg]
      exact ih hc.2 hs hl
    · cases us with
      | nil => simp at hl
      | cons u us =>
        have hg : ∀ m' ∈ members, Entries.get? (.text m'.name) (named (m :: rest) (u :: us))
            = Entries.get? (.text m'.name) (named rest us) := by
          intro m' hm'
          have hne : Key.text m.name ≠ .text m'.name := fun he =>
            hc.1 (Key.text.inj he ▸ List.mem_map_of_mem (f := Member.name) hm')
          show Entries.get? _ ((.text m.name, u) :: named rest us) = _
          rw [Entries.get?, if_neg hne]
        have hm : Entries.get? (.text m.name) (named (m :: rest) (u :: us)) = some u := by
          show Entries.get? _ ((.text m.name, u) :: named rest us) = _
          rw [Entries.get?, if_pos rfl]
        rw [hm, present_congr hg, ih hc.2 hr (Nat.succ.inj hl), List.zip_cons_cons]

end Validate

end SchemaLang
