import SchemaLang.Proofs.Validate.Trace

/-!
# What can be wrong with a value

`FailsOnly P` says of an outcome that it is good or a failure with the property `P`.  For each part
of the validator there is one statement on what `P` has to hold of: of the refusal of a value at its
path, whatever the reason, of members that are missing or unknown, and of all that can be wrong with
what is inside the value.

* `Validate.failsOnly_resolved`, `Validate.failsOnly_leaf`: values that are not looked into.
* `Validate.failsOnly_itemsFrom`, `Validate.failsOnly_dictEntries`, `Validate.failsOnly_struct`:
  what is inside containers.
-/

namespace SchemaLang

namespace Validate

section

variable {α β : Type} {P : Failure → Prop}

/-- All that can be wrong with an outcome. -/
def FailsOnly (P : Failure → Prop) (x : Except Failure α) : Prop := ∀ f, x = .error f → P f

theorem failsOnly_ok (a : α) : FailsOnly P (.ok a) := by
  intro f h
  cases h

theorem failsOnly_error {f : Failure} (h : P f) : FailsOnly P (.error f : Except Failure α) := by
  rintro _ ⟨⟩
  exact h

theorem FailsOnly.bind {x : Except Failure α} {g : α → Except Failure β} (hx : FailsOnly P x)
    (hg : ∀ a, FailsOnly P (g a)) : FailsOnly P (x >>= g) := by
  cases x with
  | error e => exact failsOnly_error (hx e rfl)
  | ok a => exact hg a

theorem FailsOnly.map {x : Except Failure α} (hx : FailsOnly P x) (g : α → β) :
    FailsOnly P (x.map g) := by
  cases x with
  | error e => exact failsOnly_error (hx e rfl)
  | ok a => exact failsOnly_ok (g a)

theorem FailsOnly.mono {Q : Failure → Prop} {x : Except Failure α} (hx : FailsOnly P x)
    (h : ∀ f, P f → Q f) : FailsOnly Q x := fun f hf => h f (hx f hf)

end

/-! ## Sites and aliases -/

/-- A property that values have to be refused with at a path, whatever the reason. -/
def Covers (P : Failure → Prop) (path : Path) : Prop :=
  ∀ w expected cause, P (.invalid w path expected cause)

variable {types : Types} {P : Failure → Prop} {path : Path}

theorem failsOnly_checkAttributes (hP : Covers P path) (ty : TypeRef) (attr : Option Attributes)
    (w : Value) : FailsOnly P (checkAttributes ty attr w path) := by
  rw [checkAttributes]
  split
  · split
    · exact failsOnly_ok ()
    · exact failsOnly_error (hP _ _ _)
  · split
    · exact failsOnly_ok ()
    · exact failsOnly_error (hP _ _ _)

theorem failsOnly_site (hP : Covers P path) {x : Except Failure Value} (hx : FailsOnly P x)
    (isNull : Bool) (ty : TypeRef) (attr : Option Attributes) :
    FailsOnly P (do
      let w ← if isNull then .ok .null else x
      checkAttributes ty attr w path
      pure w) := by
  have hc : ∀ w, FailsOnly P (checkAttributes ty attr w path >>= fun _ => .ok w) :=
    fun w => (failsOnly_checkAttributes hP ty attr w).bind fun _ => failsOnly_ok w
  cases isNull with
  | true => exact (failsOnly_ok Value.null).bind hc
  | false => exact hx.bind hc

theorem failsOnly_element (hP : Covers P path) {v : Value} {check : Check} {ty : TypeRef}
    (h : FailsOnly P (check ty path)) (attr : Option Attributes) :
    FailsOnly P (element v check ty attr path) := failsOnly_site hP h _ ty attr

theorem failsOnly_alongAliases (hP : Covers P path) {v : Value}
    {target : Unit → Except Failure Value} (h : FailsOnly P (target ()))
    (aliases : List (String × Typedef)) : FailsOnly P (alongAliases v path target aliases) := by
  induction aliases with
  | nil => exact h
  | cons a aliases ih => exact failsOnly_site hP ih _ (.user a.1) a.2.attr

theorem failsOnly_resolved (hP : Covers P path) {v : Value} {ty : TypeRef}
    {target : TypeRef → Except Failure Value}
    (h : ∀ aliases inner, types.Leads ty aliases inner → FailsOnly P (target inner)) :
    FailsOnly P (resolved types v ty path target) := by
  rw [resolved]
  cases hc : types.isCircular ty with
  | true => exact failsOnly_error (hP _ _ _)
  | false =>
    have hl : types.Leads ty (types.resolve ty).1 (types.resolve ty).2 :=
      Types.leads_iff.2 ⟨hc, rfl⟩
    exact failsOnly_alongAliases hP (h _ _ hl) _

/-! ## Containers -/

theorem failsOnly_presentMembers {s : Struct} {checks : Checks} {members : List Member}
    (hm : ∀ m ∈ members, Entries.get? (.text m.name) checks = none →
      P (.missingMember (path ++ [m.name])))
    (hv : ∀ m ∈ members, ∀ v check, Entries.get? (.text m.name) checks = some (v, check) →
      Covers P (path ++ [m.name]) ∧ FailsOnly P (check m.type (path ++ [m.name]))) :
    FailsOnly P (presentMembers s path checks members) := by
  induction members with
  | nil => exact failsOnly_ok []
  | cons m members ih =>
    have hrest := ih (fun m' h => hm m' (List.mem_cons_of_mem _ h))
      fun m' h => hv m' (List.mem_cons_of_mem _ h)
    rw [presentMembers]
    split
    · next hg =>
      split
      · exact failsOnly_error (hm m List.mem_cons_self hg)
      · exact hrest
    · next v check hg =>
      obtain ⟨hP, hc⟩ := hv m List.mem_cons_self v check hg
      exact (failsOnly_element hP hc m.attr).bind fun w => hrest.bind fun _ => failsOnly_ok _

theorem failsOnly_struct (hP : Covers P path) {s : Struct} {v : Value} {checks : Checks}
    {ty : TypeRef}
    (hm : ∀ m ∈ types.members s, Entries.get? (.text m.name) checks = none →
      P (.missingMember (path ++ [m.name])))
    (hv : ∀ m ∈ types.members s, ∀ v check, Entries.get? (.text m.name) checks = some (v, check) →
      Covers P (path ++ [m.name]) ∧ FailsOnly P (check m.type (path ++ [m.name])))
    (hu : ∀ k ∈ Entries.keys checks, P (.unknownMember (path ++ [k.toText]))) :
    FailsOnly P (struct types s v checks ty path) := by
  rw [struct]
  split
  · exact failsOnly_error (hP _ _ _)
  · refine (failsOnly_presentMembers hm hv).bind fun pairs => ?_
    dsimp only
    split
    · exact failsOnly_ok _
    · split
      · exact failsOnly_ok _
      · next k hk => exact failsOnly_error (hu k (List.mem_of_find?_eq_some hk))

/-- A value is refused as a whole, or it is the empty text and a struct misses a member in it. -/
theorem failsOnly_flat (hP : Covers P path) {v : Value} {ty : TypeRef}
    (hm : v = .string "" → ∀ name s, ty = .user name → types.get? name = some (.struct s) →
      ∀ member, P (.missingMember (path ++ [member]))) :
    FailsOnly P (flat types v ty path) := by
  have hplain : (∀ name, ty = .user name → ∃ e, types.get? name = some (.enum e)) →
      FailsOnly P (flat types v ty path) := by
    intro hty
    rcases @Run.flat_eq_ok_or_mismatch types v ty path hty with ⟨w, h⟩ | h
    · rw [h]
      exact failsOnly_ok w
    · rw [h]
      exact failsOnly_error (hP _ _ _)
  cases ty with
  | user name =>
    cases hd : types.get? name with
    | none =>
      simp only [flat, hd]
      exact failsOnly_error (hP _ _ _)
    | some d =>
      cases d with
      | enum e => exact hplain fun _ h => ⟨e, TypeRef.user.inj h ▸ hd⟩
      | struct s =>
        simp only [flat, hd]
        split
        · exact failsOnly_struct hP (fun m _ _ => hm rfl name s rfl hd m.name)
            (fun m _ v check h => by simp [Entries.get?] at h) (by simp [Entries.keys])
        · exact failsOnly_error (hP _ _ _)
      | _ =>
        simp only [flat, hd]
        exact failsOnly_error (hP _ _ _)
  | _ => exact hplain (by simp)

theorem failsOnly_leaf (hP : Covers P path) {v : Value} {ty : TypeRef}
    (hm : v = .string "" → ∀ name s, types.effective ty = .user name →
      types.get? name = some (.struct s) → ∀ member, P (.missingMember (path ++ [member]))) :
    FailsOnly P (leaf types v ty path) := by
  refine failsOnly_resolved hP fun aliases inner hl => failsOnly_flat hP ?_
  rintro hv name s rfl hd
  exact hm hv name s (Types.effective_of_leads hl) hd

theorem failsOnly_itemsFrom {items : List Value} {ty : TypeRef} {attr : Option Attributes}
    {i : Nat} (hP : ∀ j v, items[j]? = some v → Covers P (path ++ [toString (i + j)])
      ∧ FailsOnly P (value types v ty (path ++ [toString (i + j)]))) :
    FailsOnly P (itemsFrom types items ty attr path i) := by
  induction items generalizing i with
  | nil => exact failsOnly_ok []
  | cons v items ih =>
    have hrest : FailsOnly P (itemsFrom types items ty attr path (i + 1)) := by
      apply ih
      intro j w hj
      rw [Nat.add_right_comm, Nat.add_assoc]
      exact hP (j + 1) w hj
    obtain ⟨hv, hc⟩ := hP 0 v rfl
    exact (failsOnly_element hv hc attr).bind fun w => hrest.bind fun _ => failsOnly_ok _

theorem failsOnly_dictEntries {entries : List (Key × Value)} {ty keyType : TypeRef}
    {attr keyAttr : Option Attributes} (hP : Covers P path)
    (hk : ∀ e ∈ entries, FailsOnly P (leaf types (.ofKey e.1) keyType path))
    (hv : ∀ e ∈ entries, Covers P (path ++ [e.1.toText])
      ∧ FailsOnly P (value types e.2 ty (path ++ [e.1.toText]))) :
    FailsOnly P (dictEntries types entries ty attr keyType keyAttr path) := by
  induction entries with
  | nil => exact failsOnly_ok []
  | cons e entries ih =>
    have hrest := ih (fun e he => hk e (List.mem_cons_of_mem _ he))
      fun e he => hv e (List.mem_cons_of_mem _ he)
    obtain ⟨hc, hcv⟩ := hv e List.mem_cons_self
    exact (failsOnly_element hP (hk e List.mem_cons_self) keyAttr).bind fun key =>
      (failsOnly_element hc hcv attr).bind fun w => hrest.bind fun _ => failsOnly_ok _

end Validate

end SchemaLang
