import Mathlib.Data.Set.Defs
import SchemaLang.Proofs.Lint.Inheritance
import SchemaLang.Proofs.Model.Reach

/-!
# Models that share definitions

Two models may have the same definitions under some names and differ elsewhere.  Where these names
are closed under mention, whatever is asked about a type that is written with them has one answer
in both models: where its aliases lead, which definition it stands for, and what a definition
inherits.

Both searches keep a record of the names that they have not yet entered, and the records of the
two models differ.  They agree on the names that are ever looked up, and this is what the inductions
carry along.

* `Types.Shares.resolve`: aliases lead to the same end.
* `Types.Shares.walk`: the same items are inherited.
* `Types.shares_needs`: the names that a name needs are closed under mention.
-/

namespace SchemaLang

/-- Under a set of names that is closed under mention the definitions are the same. -/
structure Types.Shares (S : Set String) (a b : Types) : Prop where
  get? : ∀ name ∈ S, a.get? name = b.get? name
  closed : ∀ name ∈ S, ∀ other, a.Mentions name other → other ∈ S

/-- A type is written with names of a set. -/
def TypeRef.Within (S : Set String) (ty : TypeRef) : Prop := ∀ name ∈ ty.mentioned, name ∈ S

/-- A definition is written with names of a set. -/
def Definition.Within (S : Set String) (d : Definition) : Prop := ∀ name ∈ d.mentioned, name ∈ S

namespace TypeRef

variable {S : Set String}

theorem within_user {name : String} : (TypeRef.user name).Within S ↔ name ∈ S := by
  simp [Within, mentioned]

theorem within_builtin (b : Builtin) : (TypeRef.builtin b).Within S := by
  simp [Within, mentioned]

theorem within_array {element : TypeRef} {attr : Option Attributes}
    (h : (TypeRef.array element attr).Within S) : element.Within S := h

theorem within_dict {value : TypeRef} {key : Option TypeRef} {attr keyAttr : Option Attributes}
    (h : (TypeRef.dict value attr key keyAttr).Within S) :
    value.Within S ∧ (key.getD (.builtin .string)).Within S := by
  cases key with
  | none => exact ⟨h, within_builtin _⟩
  | some key =>
    exact ⟨fun name hm => h name (List.mem_append_left _ hm),
      fun name hm => h name (List.mem_append_right _ hm)⟩

end TypeRef

/-- Records of two searches agree on the names of a set. -/
structure SameRecord (S : Set String) (u u' : List String) : Prop where
  nodup : u.Nodup
  nodup' : u'.Nodup
  mem_iff : ∀ name ∈ S, name ∈ u ↔ name ∈ u'

theorem SameRecord.erase {S : Set String} {u u' : List String} (h : SameRecord S u u')
    (name : String) : SameRecord S (u.erase name) (u'.erase name) where
  nodup := h.nodup.erase name
  nodup' := h.nodup'.erase name
  mem_iff other ho := by
    rw [h.nodup.mem_erase_iff, h.nodup'.mem_erase_iff, h.mem_iff other ho]

theorem SameRecord.mono {S T : Set String} {u u' : List String} (h : SameRecord S u u')
    (hT : ∀ name ∈ T, name ∈ S) : SameRecord T u u' where
  nodup := h.nodup
  nodup' := h.nodup'
  mem_iff name hn := h.mem_iff name (hT name hn)

namespace Types.Shares

variable {S : Set String} {a b : Types}

theorem definition {name : String} {d : Definition} (h : Shares S a b) (hn : name ∈ S)
    (hd : a.get? name = some d) : d.Within S :=
  fun other hm => h.closed name hn other ⟨d, hd, hm⟩

theorem typedef {name : String} {t : Typedef} (h : Shares S a b) (hn : name ∈ S)
    (hd : a.get? name = some (.typedef t)) : t.type.Within S := h.definition hn hd

theorem sameRecord_names (h : Shares S a b) : SameRecord S a.names b.names where
  nodup := NameMap.nodup_names a
  nodup' := NameMap.nodup_names b
  mem_iff name hn := by
    rw [NameMap.mem_names_iff, NameMap.mem_names_iff, h.get? name hn]

/-! ## Aliases -/

theorem isTypedef {ty : TypeRef} (h : Shares S a b) (hty : ty.Within S) :
    a.isTypedef ty = b.isTypedef ty := by
  cases ty with
  | user name => rw [Types.isTypedef, Types.isTypedef, h.get? name (TypeRef.within_user.1 hty)]
  | _ => rfl

/-- The chain of aliases stays among the names, so both models look up the same typedefs. -/
theorem chase {u u' : List String} {ty : TypeRef} (h : Shares S a b) (hu : SameRecord S u u')
    (hty : ty.Within S) :
    a.chase u ty = b.chase u' ty ∧ (a.chase u ty).2.Within S := by
  induction u, ty using chase.induct a generalizing u' with
  | case1 u name t hd hm _ _ _ ih =>
    have hn := TypeRef.within_user.1 hty
    have ht : t.type.Within S := h.typedef hn hd
    obtain ⟨he, hw⟩ := ih (hu.erase name) ht
    have hb : b.get? name = some (.typedef t) := (h.get? name hn).symm.trans hd
    rw [Types.chase.eq_1, Types.chase.eq_1 b]
    simp only [hd, hb, hm, (hu.mem_iff name hn).1 hm, if_true, ← he]
    exact ⟨trivial, hw⟩
  | case2 u name t hd hm =>
    have hn := TypeRef.within_user.1 hty
    have hb : b.get? name = some (.typedef t) := (h.get? name hn).symm.trans hd
    rw [Types.chase.eq_1, Types.chase.eq_1 b]
    simp only [hd, hb, hm, mt (hu.mem_iff name hn).2 hm, if_false]
    exact ⟨trivial, hty⟩
  | case3 u name hd =>
    have hn := TypeRef.within_user.1 hty
    rw [Types.chase.eq_1, Types.chase.eq_1 b, ← h.get? name hn]
    split
    · next t ht => exact absurd ht (hd t)
    · exact ⟨rfl, hty⟩
  | case4 u ty hne =>
    rw [Types.chase.eq_2 _ _ _ hne, Types.chase.eq_2 _ _ _ hne]
    exact ⟨rfl, hty⟩

theorem resolve {ty : TypeRef} (h : Shares S a b) (hty : ty.Within S) :
    a.resolve ty = b.resolve ty := (h.chase h.sameRecord_names hty).1

theorem within_resolve {ty : TypeRef} (h : Shares S a b) (hty : ty.Within S) :
    (a.resolve ty).2.Within S := (h.chase h.sameRecord_names hty).2

theorem isCircular {ty : TypeRef} (h : Shares S a b) (hty : ty.Within S) :
    a.isCircular ty = b.isCircular ty := by
  rw [Types.isCircular, Types.isCircular, effective, effective, ← h.resolve hty]
  exact h.isTypedef (h.within_resolve hty)

/-! ## Bases -/

/-- The definition that a name stands for is one of the shared ones. -/
theorem effectiveDefinition? {name : String} (h : Shares S a b) (hn : name ∈ S) :
    a.effectiveDefinition? name = b.effectiveDefinition? name
      ∧ ∀ d, a.effectiveDefinition? name = some d → ∃ target ∈ S, a.get? target = some d := by
  rw [Types.effectiveDefinition?, Types.effectiveDefinition?, ← h.get? name hn]
  split
  · next t hd =>
    have ht : t.type.Within S := h.typedef hn hd
    have hw : (a.effective t.type).Within S := h.within_resolve ht
    have he : a.effective t.type = b.effective t.type := congrArg Prod.snd (h.resolve ht)
    rw [← he]
    split
    · next target htarget =>
      rw [htarget] at hw
      have hs := TypeRef.within_user.1 hw
      exact ⟨h.get? target hs, fun d hd => ⟨target, hs, hd⟩⟩
    · exact ⟨rfl, by simp⟩
  · exact ⟨rfl, fun d hd => ⟨name, hn, hd⟩⟩

end Types.Shares

namespace Heritage

variable {δ α : Type} {h : Heritage δ α}

/-- The bases of a definition are among the names that it mentions. -/
def MentionsBases (h : Heritage δ α) : Prop :=
  ∀ d b, h.ofDefinition? d = some b → ∀ base ∈ h.bases b, base ∈ d.mentioned

theorem mentionsBases_struct : Struct.heritage.MentionsBases := by
  rintro d s hs
  cases d <;> cases hs
  exact fun base hb => List.mem_append_left _ hb

theorem mentionsBases_enum : Enum.heritage.MentionsBases := by
  rintro d e he
  cases d <;> cases he
  exact fun base hb => hb

/-- A base that is to be entered is among the names. -/
def Task.Within (S : Set String) : Task δ → Prop
  | .enter base => base ∈ S
  | .list _ => True

theorem tasks_within {S : Set String} {d : δ} (hb : ∀ base ∈ h.bases d, base ∈ S) :
    ∀ t ∈ h.tasks d, t.Within S := by
  intro t ht
  rcases List.mem_append.1 ht with ht | ht
  · obtain ⟨base, hm, rfl⟩ := List.mem_map.1 ht
    exact hb base hm
  · rw [List.mem_singleton.1 ht]
    trivial

end Heritage

namespace Types.Shares

variable {S : Set String} {a b : Types} {δ α : Type} {h : Heritage δ α}

theorem base? {base : String} (hs : Shares S a b) (hb : base ∈ S) :
    h.base? a base = h.base? b base := by
  rw [Heritage.base?, Heritage.base?, (hs.effectiveDefinition? hb).1]

/-- The names that definitions of the set give themselves. -/
def OwnNames (S : Set String) (a : Types) : Set String :=
  fun own => ∃ name ∈ S, ∃ d, a.get? name = some d ∧ d.name = own

theorem exists_of_base? {base : String} {d : δ} (hs : Shares S a b) (hn : h.Named)
    (hm : h.MentionsBases) (hb : base ∈ S) (hd : h.base? a base = some d) :
    h.name d ∈ OwnNames S a ∧ ∀ base ∈ h.bases d, base ∈ S := by
  obtain ⟨definition, he, ho⟩ := Option.bind_eq_some_iff.1 hd
  obtain ⟨name, hname, hget⟩ := (hs.effectiveDefinition? hb).2 definition he
  exact ⟨⟨name, hname, definition, hget, (hn definition d ho).symm⟩,
    fun base hb => hs.definition hname hget base (hm definition d ho base hb)⟩

theorem sameRecord_ownNames (hs : Shares S a b) :
    SameRecord (OwnNames S a) a.ownNames b.ownNames where
  nodup := nodup_eraseDups _
  nodup' := nodup_eraseDups _
  mem_iff := by
    rintro own ⟨name, hn, d, hd, rfl⟩
    have hmem : ∀ {types : Types}, types.get? name = some d → d.name ∈ types.ownNames := by
      intro types hget
      rw [ownNames, List.mem_eraseDups]
      exact List.mem_map_of_mem (f := fun e : String × Definition => e.2.name)
        (NameMap.get?_eq_some_iff.1 hget)
    exact iff_of_true (hmem hd) (hmem ((hs.get? name hn).symm.trans hd))

theorem run {u u' : List String} {tasks : List (Heritage.Task δ)} (hs : Shares S a b)
    (hn : h.Named) (hm : h.MentionsBases) (hu : SameRecord (OwnNames S a) u u')
    (ht : ∀ t ∈ tasks, t.Within S) : h.run a u tasks = h.run b u' tasks := by
  induction u, tasks using Heritage.run_induct h a generalizing u' with
  | nil u => rw [Heritage.run_nil, Heritage.run_nil]
  | list u d rest ih =>
    rw [Heritage.run_list, Heritage.run_list, ih hu (List.forall_mem_cons.1 ht).2]
  | none u base rest hb ih =>
    obtain ⟨hbase, ht⟩ := List.forall_mem_cons.1 ht
    rw [Heritage.run_enter_none hb, Heritage.run_enter_none ((hs.base? hbase).symm.trans hb),
      ih hu ht]
  | seen u base rest d hb hd =>
    have hbase : base ∈ S := (List.forall_mem_cons.1 ht).1
    obtain ⟨hown, -⟩ := hs.exists_of_base? hn hm hbase hb
    rw [Heritage.run_enter_seen hb hd, Heritage.run_enter_seen ((hs.base? hbase).symm.trans hb)
      (mt (hu.mem_iff _ hown).2 hd)]
  | enter u base rest d hb hd ih =>
    obtain ⟨hbase, ht⟩ := List.forall_mem_cons.1 ht
    obtain ⟨hown, hbases⟩ := hs.exists_of_base? hn hm hbase hb
    rw [Heritage.run_enter hb hd, Heritage.run_enter ((hs.base? hbase).symm.trans hb)
      ((hu.mem_iff _ hown).1 hd)]
    exact ih (hu.erase _) (List.forall_mem_append.2 ⟨Heritage.tasks_within hbases, ht⟩)

/-- What is inherited is found along the bases, which are all shared. -/
theorem walk {d : δ} (hs : Shares S a b) (hn : h.Named) (hm : h.MentionsBases)
    (hb : ∀ base ∈ h.bases d, base ∈ S) : a.walk h d = b.walk h d :=
  hs.run hn hm hs.sameRecord_ownNames (Heritage.tasks_within hb)

theorem members {name : String} {s : Struct} (hs : Shares S a b) (hn : name ∈ S)
    (hd : a.get? name = some (.struct s)) : a.members s = b.members s := by
  have hb : ∀ base ∈ Struct.heritage.bases s, base ∈ S := fun base hm =>
    hs.definition hn hd base (Heritage.mentionsBases_struct _ s rfl base hm)
  rw [Types.members, Types.members,
    hs.walk Heritage.named_struct Heritage.mentionsBases_struct hb]

theorem values {name : String} {e : Enum} (hs : Shares S a b) (hn : name ∈ S)
    (hd : a.get? name = some (.enum e)) : a.values e = b.values e := by
  have hb : ∀ base ∈ Enum.heritage.bases e, base ∈ S := fun base hm =>
    hs.definition hn hd base (Heritage.mentionsBases_enum _ e rfl base hm)
  rw [Types.values, Types.values, hs.walk Heritage.named_enum Heritage.mentionsBases_enum hb]

/-- Inherited members are written with shared names too. -/
theorem hasItem {d : Struct} {m : Member} (hs : Shares S a b)
    (hi : Struct.heritage.HasItem a d m) {name : String} (hn : name ∈ S)
    (hd : a.get? name = some (.struct d)) : m.type.Within S := by
  induction hi generalizing name with
  | @own d m hm =>
    intro other ho
    refine hs.definition hn hd other (List.mem_append_right _ ?_)
    exact List.mem_flatMap.2 ⟨m, hm, ho⟩
  | @inherited d d' base m hm hb _ ih =>
    have hbase : base ∈ S :=
      hs.definition hn hd base (Heritage.mentionsBases_struct _ d rfl base hm)
    obtain ⟨definition, he, ho⟩ := Option.bind_eq_some_iff.1 hb
    obtain ⟨target, ht, hget⟩ := (hs.effectiveDefinition? hbase).2 definition he
    cases definition <;> cases ho
    exact ih ht hget

theorem within_members {name : String} {s : Struct} (hs : Shares S a b) (hn : name ∈ S)
    (hd : a.get? name = some (.struct s)) : ∀ m ∈ a.members s, m.type.Within S :=
  fun _ hm => hs.hasItem (hasItem_of_mem_walk hm) hn hd

end Types.Shares

/-! ## Names that a name needs -/

/-- Models that agree on what a name needs share it. -/
theorem Types.shares_needs {a b : Types} {start : String}
    (h : ∀ name, a.Needs start name → b.get? name = a.get? name) :
    Shares (a.Needs start) a b where
  get? name hn := (h name hn).symm
  closed _ hn _ hm := .tail hn hm

end SchemaLang
