import Mathlib.Logic.Relation
import SchemaLang.Proofs.Alias
import SchemaLang.Proofs.Model.Reach

/-!
# Aliases that come round

From the name of a typedef one alias leads on, so the chain from a type either ends in a type that
is no typedef or runs into a cycle, perhaps after a tail that is not on it.  `Types.effective` stops
at the end of the chain or at the first typedef that it comes back to, and this one is on the cycle.

That following a cycle from one of its names ends at this same name is seen in the model without
the name: there the chain ends at it, so it meets no name twice before.

* `Types.chases_iff`: following aliases with a growing record comes to one end, which is found.
* `Types.exists_cycle`: what a chain without an end stops at.
* `Types.effective_effective`: what has been found stands for itself.
-/

namespace SchemaLang

namespace Types

/-- One alias is followed. -/
inductive Follows (types : Types) : TypeRef → TypeRef → Prop
  | typedef {name : String} {t : Typedef} (hd : types.get? name = some (.typedef t)) :
      Follows types (.user name) t.type

/-- The chain of aliases from a type comes to a type that is no typedef. -/
def EndsIn (types : Types) (ty target : TypeRef) : Prop :=
  Relation.ReflTransGen types.Follows ty target ∧ types.isTypedef target = false

/-- Aliases are followed with the names of the typedefs met on record, up to a type that is no
typedef or to a typedef met before. -/
inductive Chases (types : Types) : List String → TypeRef → TypeRef → Prop
  | stop {seen : List String} {ty : TypeRef} (h : types.isTypedef ty = false) :
      Chases types seen ty ty
  | again {seen : List String} {name : String} {t : Typedef}
      (hd : types.get? name = some (.typedef t)) (hm : name ∈ seen) :
      Chases types seen (.user name) (.user name)
  | next {seen : List String} {name : String} {t : Typedef} {target : TypeRef}
      (hd : types.get? name = some (.typedef t)) (hm : name ∉ seen)
      (h : Chases types (name :: seen) t.type target) : Chases types seen (.user name) target

variable {types : Types}

theorem chase_of_not_isTypedef {unseen : List String} {ty : TypeRef}
    (h : types.isTypedef ty = false) : types.chase unseen ty = ([], ty) :=
  (Leads.here h).chase (by simp)

theorem chase_again {unseen : List String} {name : String} {t : Typedef}
    (hd : types.get? name = some (.typedef t)) (hm : name ∉ unseen) :
    types.chase unseen (.user name) = ([], .user name) := by
  rw [chase]
  simp only [hd, hm, if_false]

variable (types) in
/-- The induction that following aliases goes along. -/
theorem chase_induct {motive : List String → TypeRef → Prop}
    (stop : ∀ unseen ty, types.isTypedef ty = false → motive unseen ty)
    (again : ∀ unseen name t, types.get? name = some (.typedef t) → name ∉ unseen →
      motive unseen (.user name))
    (next : ∀ unseen name t, types.get? name = some (.typedef t) → name ∈ unseen →
      motive (unseen.erase name) t.type → motive unseen (.user name))
    (unseen : List String) (ty : TypeRef) : motive unseen ty := by
  generalize hn : unseen.length = n
  induction n using Nat.strongRecOn generalizing unseen ty with
  | _ n ih =>
    by_cases ht : types.isTypedef ty = true
    · obtain ⟨name, t, rfl, hd⟩ := exists_typedef ht
      by_cases hm : name ∈ unseen
      · have hl := List.length_erase_of_mem hm
        have hp := List.length_pos_of_mem hm
        exact next unseen name t hd hm (ih _ (by omega) _ _ rfl)
      · exact again unseen name t hd hm
    · exact stop unseen ty (Bool.eq_false_iff.2 ht)

/-! ## The record -/

theorem chases_iff {seen unseen : List String} {ty target : TypeRef}
    (ho : OppositeRecords types.names unseen seen) :
    types.Chases seen ty target ↔ target = (types.chase unseen ty).2 := by
  induction unseen, ty using chase_induct types generalizing seen target with
  | stop unseen ty ht =>
    rw [chase_of_not_isTypedef ht]
    constructor
    · intro h
      cases h with
      | stop _ => rfl
      | again _ _ => rfl
      | next hd _ _ => simp [isTypedef_user hd] at ht
    · rintro rfl
      exact .stop ht
  | again unseen name t hd hm =>
    have hseen : name ∈ seen := ho.mem_seen (NameMap.mem_names_of_get? hd) hm
    rw [chase_again hd hm]
    constructor
    · intro h
      cases h with
      | stop _ => rfl
      | again _ _ => rfl
      | next _ hm' _ => exact absurd hseen hm'
    · rintro rfl
      exact .again hd hseen
  | next unseen name t hd hm ih =>
    have hseen : name ∉ seen := (ho.mem_iff name (NameMap.mem_names_of_get? hd)).1 hm
    rw [chase_step hd hm, ← ih (ho.enter name)]
    constructor
    · intro h
      cases h with
      | stop ht => simp [isTypedef_user hd] at ht
      | again _ hm' => exact absurd hm' hseen
      | next hd' _ h =>
        cases hd.symm.trans hd'
        exact h
    · exact .next hd hseen

/-! ## Chains that end -/

theorem endsIn_iff_leads {ty target : TypeRef} :
    types.EndsIn ty target ↔ ∃ aliases, types.Leads ty aliases target := by
  constructor
  · rintro ⟨hf, ht⟩
    induction hf using Relation.ReflTransGen.head_induction_on with
    | refl => exact ⟨[], .here ht⟩
    | head hs _ ih =>
      cases hs with
      | typedef hd =>
        obtain ⟨aliases, hl⟩ := ih
        exact ⟨_, .step hd hl⟩
  · rintro ⟨aliases, hl⟩
    induction hl with
    | here ht => exact ⟨.refl, ht⟩
    | step hd _ ih => exact ⟨.head (.typedef hd) ih.1, ih.2⟩

theorem effective_of_endsIn {ty target : TypeRef} (h : types.EndsIn ty target) :
    types.effective ty = target := by
  obtain ⟨_, hl⟩ := endsIn_iff_leads.1 h
  exact effective_of_leads hl

theorem isCircular_iff_not_endsIn {ty : TypeRef} :
    types.isCircular ty = true ↔ ¬∃ target, types.EndsIn ty target := by
  constructor
  · rintro hc ⟨target, h⟩
    obtain ⟨_, hl⟩ := endsIn_iff_leads.1 h
    rw [(leads_iff.1 hl).1] at hc
    simp at hc
  · intro h
    by_contra hc
    exact h ⟨_, endsIn_iff_leads.2 ⟨_, leads_iff.2 ⟨Bool.eq_false_iff.2 hc, rfl⟩⟩⟩

/-! ## Chains that do not end -/

theorem follows_chase (unseen : List String) (ty : TypeRef) :
    Relation.ReflTransGen types.Follows ty (types.chase unseen ty).2 := by
  induction unseen, ty using chase_induct types with
  | stop unseen ty ht => rw [chase_of_not_isTypedef ht]
  | again unseen name t hd hm => rw [chase_again hd hm]
  | next unseen name t hd hm ih =>
    rw [chase_step hd hm]
    exact .head (.typedef hd) ih

/-- A chase that stops at a typedef has met it before, or had it on record before it began. -/
theorem exists_stop {unseen : List String} {ty : TypeRef}
    (h : types.isTypedef (types.chase unseen ty).2 = true) :
    ∃ name, (types.chase unseen ty).2 = .user name
      ∧ (name ∉ unseen ∨ Relation.TransGen types.Follows (.user name) (.user name)) := by
  induction unseen, ty using chase_induct types with
  | stop unseen ty ht =>
    rw [chase_of_not_isTypedef ht, ht] at h
    simp at h
  | again unseen name t hd hm =>
    rw [chase_again hd hm]
    exact ⟨name, rfl, .inl hm⟩
  | next unseen name t hd hm ih =>
    have hreach : Relation.ReflTransGen types.Follows t.type
        (types.chase (unseen.erase name) t.type).2 := follows_chase _ _
    rw [chase_step hd hm] at h ⊢
    obtain ⟨other, he, ho⟩ := ih h
    refine ⟨other, he, ?_⟩
    rcases ho with ho | ho
    · by_cases hn : other = name
      · rw [he, hn] at hreach
        rw [hn]
        exact .inr (.head' (.typedef hd) hreach)
      · exact .inl fun hm' => ho ((List.mem_erase_of_ne hn).2 hm')
    · exact .inr ho

/-- A chain that does not end stops at a typedef that comes back to itself. -/
theorem exists_cycle {ty : TypeRef} (h : ¬∃ target, types.EndsIn ty target) :
    ∃ name t, types.effective ty = .user name ∧ types.get? name = some (.typedef t)
      ∧ Relation.ReflTransGen types.Follows ty (.user name)
      ∧ Relation.TransGen types.Follows (.user name) (.user name) := by
  have hc : types.isTypedef (types.effective ty) = true := isCircular_iff_not_endsIn.2 h
  obtain ⟨name, he, hround⟩ := exists_stop hc
  have hname : types.effective ty = .user name := he
  have hreach : Relation.ReflTransGen types.Follows ty (types.effective ty) := follows_chase _ ty
  rw [hname] at hc hreach
  obtain ⟨_, t, heq, hd⟩ := exists_typedef hc
  cases heq
  refine ⟨name, t, hname, hd, hreach, hround.resolve_left ?_⟩
  exact not_not_intro (NameMap.mem_names_of_get? hd)

/-! ## Round a cycle -/

/-- Where a name is taken out, chains that come to it end there. -/
theorem exists_leads_erase {name : String} {ty : TypeRef}
    (h : Relation.ReflTransGen types.Follows ty (.user name)) :
    ∃ aliases, Leads (types.erase name) ty aliases (.user name) := by
  have hend : Types.isTypedef (types.erase name) (.user name) = false := by
    rw [isTypedef, NameMap.get?_erase, if_pos rfl]
  induction h using Relation.ReflTransGen.head_induction_on with
  | refl => exact ⟨[], .here hend⟩
  | head hs _ ih =>
    cases hs with
    | @typedef other t hd =>
      by_cases ho : other = name
      · rw [ho]
        exact ⟨[], .here hend⟩
      · obtain ⟨aliases, hl⟩ := ih
        refine ⟨_, .step ?_ hl⟩
        rw [NameMap.get?_erase, if_neg ho]
        exact hd

theorem get?_of_erase {name other : String} {d : Definition}
    (h : (types.erase name).get? other = some d) :
    other ≠ name ∧ types.get? other = some d := by
  rw [NameMap.get?_erase] at h
  split at h
  · simp at h
  · next ho => exact ⟨ho, h⟩

/-- A chain that comes to a name on record stops there. -/
theorem chase_of_leads_erase {name : String} {t : Typedef} {ty : TypeRef}
    {aliases : List (String × Typedef)} (h : Leads (types.erase name) ty aliases (.user name))
    (hd : types.get? name = some (.typedef t)) {unseen : List String} (hm : name ∉ unseen)
    (hu : ∀ other ∈ aliases.map Prod.fst, other ∈ unseen) :
    (types.chase unseen ty).2 = .user name := by
  generalize htarget : TypeRef.user name = target at h
  induction h generalizing unseen with
  | here _ =>
    rw [← htarget, chase_again hd hm]
  | @step other u rest target hd' hl ih =>
    have hnot := (List.nodup_cons.1 (Leads.step hd' hl).nodup).1
    rw [chase_step (get?_of_erase hd').2 (hu other List.mem_cons_self)]
    refine ih (fun hmem => hm (List.mem_of_mem_erase hmem)) ?_ htarget
    intro n hn
    have hne : n ≠ other := fun he => hnot (he ▸ hn)
    exact (List.mem_erase_of_ne hne).2 (hu n (List.mem_cons_of_mem _ hn))

/-- Round a cycle one comes back to where one started before anything else is met twice. -/
theorem effective_of_cycle {name : String}
    (h : Relation.TransGen types.Follows (.user name) (.user name)) :
    types.effective (.user name) = .user name := by
  obtain ⟨_, hs, hr⟩ := Relation.TransGen.head'_iff.1 h
  cases hs with
  | @typedef _ t hd =>
    obtain ⟨aliases, hl⟩ := exists_leads_erase hr
    rw [effective, resolve, chase_step hd (NameMap.mem_names_of_get? hd)]
    refine chase_of_leads_erase hl hd (NameMap.nodup_names types).not_mem_erase ?_
    intro other ho
    obtain ⟨d, ho⟩ := NameMap.mem_names_iff.1 (hl.names other ho)
    obtain ⟨hne, ho⟩ := get?_of_erase ho
    exact (List.mem_erase_of_ne hne).2 (NameMap.mem_names_of_get? ho)

theorem effective_effective (ty : TypeRef) :
    types.effective (types.effective ty) = types.effective ty := by
  by_cases h : ∃ target, types.EndsIn ty target
  · obtain ⟨target, h⟩ := h
    rw [effective_of_endsIn h]
    exact effective_of_endsIn ⟨.refl, h.2⟩
  · obtain ⟨name, t, he, -, -, hround⟩ := exists_cycle h
    rw [he]
    exact effective_of_cycle hround

end Types

end SchemaLang
