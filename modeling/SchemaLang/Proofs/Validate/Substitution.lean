import SchemaLang.Proofs.Lint.Acceptance
import SchemaLang.Proofs.Validate.Equivalence
import SchemaLang.Proofs.Validate.Members

/-!
# Values of a definition and of its bases

A definition lists what it inherits from a base as the base itself does, all of it together.  What
is a value of a base enum or a base union is therefore a value of the definition.  With structs it
is the other way: a value of the definition has members that the base does not know, and is a value
of the base without them.

Names of members are distinct in a model without findings, which is what keeps the members before
and after the inherited ones apart from them.

* `ReadsMembers.of_base`: the value of a union is read as before when members come to it.
* `ReadsMembers.restrict`: the value of a struct is read as before when members are left out.
* `validateAs_of_base`: both for all definitions, with the bases found along aliases.
-/

namespace SchemaLang

namespace Validate

/-- The entries whose keys are names of members. -/
def under (members : List Member) (entries : List (Key × Value)) : List (Key × Value) :=
  entries.filter fun e => members.any fun m => e.1 == .text m.name

variable {types : Types} {s b : Struct} {members ms : List Member} {entries : List (Key × Value)}

/-! ## A part of the members -/

theorem get?_under {m : Member} (hm : m ∈ members) :
    Entries.get? (.text m.name) (under members entries)
      = Entries.get? (.text m.name) entries := by
  have hp : (members.any fun m' => Key.text m.name == .text m'.name) = true :=
    List.any_eq_true.2 ⟨m, hm, beq_self_eq_true _⟩
  have hget := Entries.get?_filter (fun k => members.any fun m' => k == .text m'.name)
    (.text m.name) entries
  rwa [if_pos hp] at hget

theorem mem_keys_under {k : Key} :
    k ∈ Entries.keys (under members entries)
      ↔ k ∈ Entries.keys entries ∧ ∃ m ∈ members, k = .text m.name := by
  simp only [Entries.keys, under, List.mem_map, List.mem_filter, List.any_eq_true, beq_iff_eq]
  constructor
  · rintro ⟨e, ⟨he, hm⟩, rfl⟩
    exact ⟨⟨e, he, rfl⟩, hm⟩
  · rintro ⟨⟨e, he, rfl⟩, hm⟩
    exact ⟨e, ⟨he, hm⟩, rfl⟩

theorem present_append (members ms : List Member) (entries : List (Key × Value)) :
    present (members ++ ms) entries = present members entries ++ present ms entries :=
  List.filterMap_append

theorem present_eq_nil (h : ∀ m ∈ members, .text m.name ∉ Entries.keys entries) :
    present members entries = [] := by
  rw [present, List.filterMap_eq_nil_iff]
  intro m hm
  rw [Entries.get?_eq_none_iff.2 (h m hm)]
  rfl

theorem named_append {ws us : List Value} (hl : members.length = ws.length) :
    named (members ++ ms) (ws ++ us) = named members ws ++ named ms us := by
  rw [named, List.zip_append hl, List.map_append]
  rfl

theorem under_named_of_subset {ws : List Value} (h : ms ⊆ members) :
    under members (named ms ws) = named ms ws := by
  refine List.filter_eq_self.2 ?_
  intro e he
  obtain ⟨p, hp, rfl⟩ := List.mem_map.1 he
  have hm : p.1 ∈ members := h (List.of_mem_zip hp).1
  exact List.any_eq_true.2 ⟨p.1, hm, beq_self_eq_true _⟩

theorem under_append (members : List Member) (es fs : List (Key × Value)) :
    under members (es ++ fs) = under members es ++ under members fs := List.filter_append _ _

/-- No member of one list has the name of a member of the other. -/
def Apart (ms members : List Member) : Prop := ∀ m ∈ ms, ∀ m' ∈ members, m.name ≠ m'.name

theorem under_named_of_apart {ws : List Value} (h : Apart ms members) :
    under members (named ms ws) = [] := by
  refine List.filter_eq_nil_iff.2 ?_
  intro e he hany
  obtain ⟨p, hp, rfl⟩ := List.mem_map.1 he
  obtain ⟨m, hm, hk⟩ := List.any_eq_true.1 hany
  have hname : p.1.name = m.name := Key.text.inj (beq_iff_eq.1 hk)
  exact h p.1 (List.of_mem_zip hp).1 m hm hname

/-- What stands before and after a part has other names. -/
theorem exists_apart_of_infix {part : List Member} (hi : part <:+: members)
    (hn : (members.map Member.name).Nodup) :
    ∃ before after, members = before ++ (part ++ after) ∧ Apart before part
      ∧ Apart after part := by
  obtain ⟨before, after, rfl⟩ := hi
  rw [List.append_assoc, List.map_append, List.map_append] at hn
  obtain ⟨-, hn, hbefore⟩ := List.nodup_append.1 hn
  obtain ⟨-, -, hafter⟩ := List.nodup_append.1 hn
  refine ⟨before, after, List.append_assoc _ _ _, ?_, ?_⟩
  · intro m hm m' hm'
    refine hbefore _ (List.mem_map_of_mem hm) _ ?_
    exact List.mem_append_left _ (List.mem_map_of_mem hm')
  · intro m hm m' hm' he
    exact hafter _ (List.mem_map_of_mem hm') _ (List.mem_map_of_mem hm) he.symm

/-! ## Values of unions -/

/-- The one entry is under a name of the base, so that the other members are not there. -/
theorem ReadsMembers.of_base {w : Value} (hi : types.members b <:+: types.members s)
    (hn : ((types.members s).map Member.name).Nodup) (hb : b.union = true) (hs : s.union = true)
    (h : ReadsMembers types b entries w) : ReadsMembers types s entries w := by
  obtain ⟨hu, hk, -, ws, hws, hw⟩ := h
  obtain ⟨before, after, hsplit, hbefore, hafter⟩ := exists_apart_of_infix hi hn
  have hnone : ∀ ms, Apart ms (types.members b) → present ms entries = [] := by
    intro ms hms
    refine present_eq_nil ?_
    intro m hm hkey
    obtain ⟨m', hm', he⟩ := hk _ hkey
    exact hms m hm m' hm' (Key.text.inj he)
  have hpresent : present (types.members s) entries = present (types.members b) entries := by
    rw [hsplit, present_append, present_append, hnone before hbefore, hnone after hafter,
      List.nil_append, List.append_nil]
  refine ⟨fun _ => hu hb, ?_, fun _ _ _ => .inr hs, ws, ?_, ?_⟩
  · intro k hmk
    obtain ⟨m, hm, rfl⟩ := hk k hmk
    exact ⟨m, hi.subset hm, rfl⟩
  · rwa [hpresent]
  · rwa [hpresent]

/-! ## Values of structs -/

theorem exists_of_forall₂_append {α β : Type} {R : α → β → Prop} {l₁ l₂ : List α} {us : List β}
    (h : List.Forall₂ R (l₁ ++ l₂) us) :
    ∃ us₁ us₂, List.Forall₂ R l₁ us₁ ∧ List.Forall₂ R l₂ us₂ ∧ us = us₁ ++ us₂ :=
  ⟨_, _, (List.forall₂_take_append us l₁ l₂ h.flip).flip,
    (List.forall₂_drop_append us l₁ l₂ h.flip).flip, (List.take_append_drop _ _).symm⟩

/-- The members of the base are read together, apart from those before and after them. -/
theorem exists_forall₂_under {R : Member × Value → Value → Prop} {ws : List Value}
    {part : List Member} (hi : part <:+: members) (hn : (members.map Member.name).Nodup)
    (h : List.Forall₂ R (present members entries) ws) :
    ∃ us, List.Forall₂ R (present part entries) us
      ∧ Value.object (under part
          (Entries.ofList (named ((present members entries).map Prod.fst) ws)))
        = .object (Entries.ofList (named ((present part entries).map Prod.fst) us)) := by
  have hlength : ∀ {ms us}, List.Forall₂ R (present ms entries) us →
      ((present ms entries).map Prod.fst).length = us.length :=
    fun hu => (List.length_map _).trans hu.length_eq
  have hout := ofList_named (hlength h) (nodup_present hn entries)
  have hnpart := hn.sublist (hi.sublist.map Member.name)
  have hsubset : ∀ ms, (present ms entries).map Prod.fst ⊆ ms :=
    fun ms => (sublist_present ms entries).subset
  obtain ⟨before, after, rfl, hbefore, hafter⟩ := exists_apart_of_infix hi hn
  rw [hout]
  rw [present_append, present_append] at h ⊢
  obtain ⟨ws₁, _, h₁, hrest, rfl⟩ := exists_of_forall₂_append h
  obtain ⟨us, ws₃, hus, h₃, rfl⟩ := exists_of_forall₂_append hrest
  refine ⟨us, hus, ?_⟩
  rw [ofList_named (hlength hus) (nodup_present hnpart entries)]
  rw [List.map_append, List.map_append, named_append (hlength h₁), named_append (hlength hus),
    under_append, under_append]
  rw [under_named_of_apart fun m hm => hbefore m (hsubset before hm),
    under_named_of_subset (hsubset part),
    under_named_of_apart fun m hm => hafter m (hsubset after hm)]
  rw [List.nil_append, List.append_nil]

/-- What is left of a value of a struct is read as it was read. -/
theorem ReadsMembers.restrict {w : Value} (hi : types.members b <:+: types.members s)
    (hn : ((types.members s).map Member.name).Nodup) (hb : b.union = false)
    (hs : s.union = false) (h : ReadsMembers types s entries w) :
    ∃ out, w = .object out ∧ ReadsMembers types b (under (types.members b) entries)
      (.object (under (types.members b) out)) := by
  obtain ⟨-, hk, ho, ws, hws, rfl⟩ := h
  refine ⟨_, rfl, ?_⟩
  have hpresent : present (types.members b) (under (types.members b) entries)
      = present (types.members b) entries := present_congr fun m hm => get?_under hm
  refine ⟨?_, ?_, ?_, ?_⟩
  · intro hu
    exact absurd (hb.symm.trans hu) Bool.false_ne_true
  · intro k hm
    exact (mem_keys_under.1 hm).2
  · intro m hm hkey
    refine (ho m (hi.subset hm) ?_).imp_right fun hu => hb.trans (hs.symm.trans hu)
    intro hm'
    exact hkey (mem_keys_under.2 ⟨hm', m, hm, rfl⟩)
  · rw [hpresent]
    exact exists_forall₂_under hi hn hws

end Validate

/-! ## Definitions and their bases -/

section

variable {types : Types} {derived base target : String}

/-- What a base stands for is found under the name that it leads to. -/
theorem Types.Denotes.get? {d : Definition} (h : types.Denotes base d)
    (ht : types.effective (.user base) = .user target) : types.get? target = some d := by
  obtain ⟨aliases, other, hl, hd⟩ := h
  rw [effective_of_leads hl] at ht
  obtain rfl := TypeRef.user.inj ht
  exact hd

theorem Types.WellFormed.members_infix (hw : types.WellFormed) {s b : Struct}
    (hd : types.get? derived = some (.struct s)) (hm : base ∈ s.bases.getD [])
    (hb : types.Denotes base (.struct b)) :
    types.members b <:+: types.members s ∧ ((types.members s).map Member.name).Nodup := by
  have hr := hw.struct hd
  refine ⟨?_, ((regular_iff Heritage.named_struct).1 hr).2⟩
  exact walk_infix Heritage.named_struct hr hm (structBase?_eq_some_iff.2 hb)

theorem Types.WellFormed.values_infix (hw : types.WellFormed) {e b : Enum}
    (hd : types.get? derived = some (.enum e)) (hm : base ∈ e.bases.getD [])
    (hb : types.Denotes base (.enum b)) : types.values b <:+: types.values e :=
  walk_infix Heritage.named_enum (hw.enum hd) hm (enumBase?_eq_some_iff.2 hb)

open Validate in
/-- Values of a base enum or union are values of the definition, read as the same.  Values of a
struct are values of a base struct as far as their members are the base's. -/
theorem validateAs_of_base (hl : types.lint = [])
    (ht : types.effective (.user base) = .user target) :
    (∀ e, types.get? derived = some (.enum e) → base ∈ e.bases.getD [] →
        ∀ v w, types.validateAs target v = .ok w → types.validateAs derived v = .ok w)
      ∧ ∀ s, types.get? derived = some (.struct s) → base ∈ s.bases.getD [] →
        (s.union = true →
          ∀ v w, types.validateAs target v = .ok w → types.validateAs derived v = .ok w)
        ∧ (s.union = false → ∃ b, types.get? target = some (.struct b) ∧ ∀ entries w,
          types.validateAs derived (.object entries) = .ok w → ∃ out, w = .object out
            ∧ types.validateAs target (.object (under (types.members b) entries))
              = .ok (.object (under (types.members b) out))) := by
  have hw := Types.wellFormed_of_lint hl
  refine ⟨?_, ?_⟩
  · intro e hd hm v w hv
    obtain ⟨b, hb⟩ := hw.enumBase hd hm
    obtain ⟨-, hv⟩ := Types.validateAs_eq_ok_iff.1 hv
    obtain ⟨text, rfl, rfl, value, hmem, hname⟩ := (reads_enum_iff (hb.get? ht)).1 hv
    refine Types.validateAs_eq_ok_iff.2 ⟨NameMap.contains_of_get? hd, (reads_enum_iff hd).2 ?_⟩
    exact ⟨text, rfl, rfl, value, (hw.values_infix hd hm hb).subset hmem, hname⟩
  · intro s hd hm
    obtain ⟨b, hb, hunion⟩ := hw.structBase hd hm
    obtain ⟨hi, hn⟩ := hw.members_infix hd hm hb
    have htarget := hb.get? ht
    refine ⟨?_, ?_⟩
    · intro hs v w hv
      obtain ⟨-, hv⟩ := Types.validateAs_eq_ok_iff.1 hv
      obtain ⟨entries, he, hv⟩ := (reads_struct_iff htarget).1 hv
      refine Types.validateAs_eq_ok_iff.2 ⟨NameMap.contains_of_get? hd, (reads_struct_iff hd).2 ?_⟩
      exact ⟨entries, he, hv.of_base hi hn (hunion.trans hs) hs⟩
    · intro hs
      refine ⟨b, htarget, ?_⟩
      intro entries w hv
      obtain ⟨-, hv⟩ := Types.validateAs_eq_ok_iff.1 hv
      obtain ⟨_, he, hread⟩ := (reads_struct_iff hd).1 hv
      obtain rfl := Option.some.inj he
      obtain ⟨out, rfl, hpart⟩ := hread.restrict hi hn (hunion.trans hs) hs
      refine ⟨out, rfl, Types.validateAs_eq_ok_iff.2 ⟨NameMap.contains_of_get? htarget, ?_⟩⟩
      exact (reads_struct_iff htarget).2 ⟨_, rfl, hpart⟩

end

/-! ## Sample definitions -/

/-- A struct with two bases, one of which is an alias and has a base of its own. -/
def Struct.place : Struct :=
  { name := "Place", bases := some ["Named", "Spot"],
    members := some [{ name := "public", type := .builtin .bool }] }

def Struct.point : Struct :=
  { name := "Point", bases := some ["Plane"],
    members := some [{ name := "y", type := .builtin .int, optional := true }] }

def Struct.moreWays : Struct :=
  { name := "MoreWays", union := true, bases := some ["Ways"],
    members := some [{ name := "boat", type := .builtin .string }] }

def Enum.shade : Enum :=
  { name := "Shade", bases := some ["Color"], values := some [{ name := "grey" }] }

/-- Inheritance of every kind, along aliases too. -/
def Types.lineage : Types :=
  .ofList
    [("Color", .enum { name := "Color", values := some [{ name := "green" }] }),
      ("MoreWays", .struct Struct.moreWays),
      ("Named", .struct
        { name := "Named", members := some [{ name := "name", type := .builtin .string }] }),
      ("Place", .struct Struct.place),
      ("Plane", .struct
        { name := "Plane", members := some [{ name := "x", type := .builtin .int }] }),
      ("Point", .struct Struct.point),
      ("Shade", .enum Enum.shade),
      ("Spot", .typedef { name := "Spot", type := .user "Point" }),
      ("Ways", .struct
        { name := "Ways", union := true,
          members := some [{ name := "road", type := .builtin .bool }] })]

theorem Types.lint_lineage : lineage.lint = [] := by decide +kernel

/-- A place, and what of it is a point, before and after it is read. -/
theorem validateAs_of_base_lineage :
    Types.lineage.lint = [] ∧ Types.lineage.effective (.user "Spot") = .user "Point"
      ∧ Types.lineage.get? "Place" = some (.struct Struct.place)
      ∧ Types.lineage.validateAs "Place" (.object [(.text "public", .string "true"),
          (.text "x", .string "7"), (.text "name", .string "hill")])
        = .ok (.object [(.text "name", .string "hill"), (.text "x", .int 7),
            (.text "public", .bool true)])
      ∧ Types.lineage.validateAs "Point" (.object [(.text "x", .string "7")])
        = .ok (.object [(.text "x", .int 7)])
      ∧ Types.lineage.validateAs "Shade" (.string "green") = .ok (.string "green")
      ∧ Types.lineage.validateAs "MoreWays" (.object [(.text "road", .string "true")])
        = .ok (.object [(.text "road", .bool true)]) := by
  have hspot : Types.lineage.effective (.user "Spot") = .user "Point" :=
    Types.effective_of_leads (.step rfl (.here rfl))
  have hplace : Types.lineage.get? "Place" = some (.struct Struct.place) := by rfl
  have hread : Types.lineage.validateAs "Place" (.object [(.text "public", .string "true"),
      (.text "x", .string "7"), (.text "name", .string "hill")])
        = .ok (.object [(.text "name", .string "hill"), (.text "x", .int 7),
            (.text "public", .bool true)]) := by with_unfolding_all rfl
  have hgreen : Types.lineage.validateAs "Color" (.string "green") = .ok (.string "green") := by
    with_unfolding_all rfl
  have hroad : Types.lineage.validateAs "Ways" (.object [(.text "road", .string "true")])
      = .ok (.object [(.text "road", .bool true)]) := by with_unfolding_all rfl
  refine ⟨Types.lint_lineage, hspot, hplace, hread, ?_, ?_, ?_⟩
  · obtain ⟨b, hb, hpart⟩ := ((validateAs_of_base Types.lint_lineage hspot).2
      Struct.place hplace (by decide)).2 rfl
    obtain rfl : b = Struct.point := by
      have hpoint : Types.lineage.get? "Point" = some (.struct Struct.point) := by rfl
      exact Definition.struct.inj (Option.some.inj (hb.symm.trans hpoint))
    obtain ⟨out, hout, hpart⟩ := hpart _ _ hread
    obtain rfl := Value.object.inj hout
    exact hpart
  · have hcolor : Types.lineage.effective (.user "Color") = .user "Color" :=
      Types.effective_of_leads (.here rfl)
    have hshade : Types.lineage.get? "Shade" = some (.enum Enum.shade) := by rfl
    exact (validateAs_of_base Types.lint_lineage hcolor).1 Enum.shade hshade (by decide) _ _ hgreen
  · have hways : Types.lineage.effective (.user "Ways") = .user "Ways" :=
      Types.effective_of_leads (.here rfl)
    have hmore : Types.lineage.get? "MoreWays" = some (.struct Struct.moreWays) := by rfl
    have hunion := (validateAs_of_base Types.lint_lineage hways).2 Struct.moreWays hmore (by decide)
    exact hunion.1 rfl _ _ hroad

end SchemaLang
