import Mathlib.Data.List.Nodup
import SchemaLang.Model.Alias

/-!
# Chains of aliases

`Leads` is the chain of typedefs from a type to the first type that is no typedef, without any
record of what has been met.  A chain comes to one end only, so it never enters a typedef twice,
and `Types.resolve`, which does keep a record, follows it to its end.

* `leads_iff`: `Types.resolve` finds exactly the chains that end, and the rest are circular.
* `Leads.unique`: a type leads to one end only.
-/

namespace SchemaLang

namespace Types

/-- The typedefs from a type on, and the first type after them. -/
inductive Leads (types : Types) : TypeRef → List (String × Typedef) → TypeRef → Prop
  | here {ty : TypeRef} (h : types.isTypedef ty = false) : Leads types ty [] ty
  | step {name : String} {t : Typedef} {aliases : List (String × Typedef)} {target : TypeRef}
      (hd : types.get? name = some (.typedef t)) (h : Leads types t.type aliases target) :
      Leads types (.user name) ((name, t) :: aliases) target

variable {types : Types}

theorem isTypedef_user {name : String} {t : Typedef} (hd : types.get? name = some (.typedef t)) :
    types.isTypedef (.user name) = true := by
  simp [isTypedef, hd]

theorem exists_typedef {ty : TypeRef} (h : types.isTypedef ty = true) :
    ∃ name t, ty = .user name ∧ types.get? name = some (.typedef t) := by
  cases ty with
  | user name =>
    rw [isTypedef] at h
    split at h
    · next t hd => exact ⟨name, t, rfl, hd⟩
    · simp at h
  | _ => simp [isTypedef] at h

theorem chase_step {unseen : List String} {name : String} {t : Typedef}
    (hd : types.get? name = some (.typedef t)) (hm : name ∈ unseen) :
    types.chase unseen (.user name)
      = ((name, t) :: (types.chase (unseen.erase name) t.type).1,
          (types.chase (unseen.erase name) t.type).2) := by
  rw [chase]
  simp only [hd, hm, if_true]

theorem Leads.target {ty target : TypeRef} {aliases : List (String × Typedef)}
    (h : Leads types ty aliases target) : types.isTypedef target = false := by
  induction h with
  | here h => exact h
  | step _ _ ih => exact ih

theorem Leads.unique {ty target target' : TypeRef} {aliases aliases' : List (String × Typedef)}
    (h : Leads types ty aliases target) (h' : Leads types ty aliases' target') :
    aliases = aliases' ∧ target = target' := by
  induction h generalizing aliases' target' with
  | here h =>
    cases h' with
    | here _ => exact ⟨rfl, rfl⟩
    | step hd _ => simp [isTypedef_user hd] at h
  | step hd _ ih =>
    cases h' with
    | here h => simp [isTypedef_user hd] at h
    | step hd' h' =>
      rw [hd] at hd'
      cases hd'
      obtain ⟨rfl, rfl⟩ := ih h'
      exact ⟨rfl, rfl⟩

/-- From each typedef of a chain the chain goes on to the same end. -/
theorem Leads.suffix {ty target : TypeRef} {aliases : List (String × Typedef)} {name : String}
    (h : Leads types ty aliases target) (hm : name ∈ aliases.map Prod.fst) :
    ∃ rest, Leads types (.user name) rest target ∧ rest.length ≤ aliases.length := by
  induction h with
  | here _ => simp at hm
  | @step n t as target hd h ih =>
    rcases List.mem_cons.1 hm with he | hm
    · have he : name = n := he
      subst he
      exact ⟨_, .step hd h, Nat.le_refl _⟩
    · obtain ⟨rest, hr, hl⟩ := ih hm
      exact ⟨rest, hr, Nat.le_succ_of_le hl⟩

theorem Leads.nodup {ty target : TypeRef} {aliases : List (String × Typedef)}
    (h : Leads types ty aliases target) : (aliases.map Prod.fst).Nodup := by
  induction h with
  | here _ => exact List.nodup_nil
  | @step n t as target hd h ih =>
    refine List.nodup_cons.2 ⟨fun hm => ?_, ih⟩
    -- the chain from `n` would be longer than itself
    obtain ⟨rest, hr, hl⟩ := h.suffix hm
    obtain ⟨he, -⟩ := hr.unique (.step hd h)
    rw [he, List.length_cons] at hl
    omega

theorem Leads.names {ty target : TypeRef} {aliases : List (String × Typedef)}
    (h : Leads types ty aliases target) : ∀ name ∈ aliases.map Prod.fst, name ∈ types.names := by
  induction h with
  | here _ => simp
  | step hd _ ih =>
    intro name hm
    rcases List.mem_cons.1 hm with rfl | hm
    · exact NameMap.mem_names_of_get? hd
    · exact ih name hm

theorem Leads.chase {ty target : TypeRef} {aliases : List (String × Typedef)}
    (h : Leads types ty aliases target) {unseen : List String}
    (hu : ∀ name ∈ aliases.map Prod.fst, name ∈ unseen) :
    types.chase unseen ty = (aliases, target) := by
  induction h generalizing unseen with
  | @here ty h =>
    cases ty with
    | user name =>
      rw [Types.chase]
      split
      · next t ht => simp [isTypedef_user ht] at h
      · rfl
    | builtin b => rw [Types.chase]; simp
    | array e a => rw [Types.chase]; simp
    | dict v a k ka => rw [Types.chase]; simp
  | @step name t as target hd h ih =>
    have hn := List.nodup_cons.1 (Leads.step hd h).nodup
    have hr : ∀ n ∈ as.map Prod.fst, n ∈ unseen.erase name := fun n hm =>
      (List.mem_erase_of_ne fun he : n = name => hn.1 (he ▸ hm)).2
        (hu n (List.mem_cons_of_mem _ hm))
    rw [Types.chase]
    simp only [hd, ih hr, hu name List.mem_cons_self, if_true]

theorem leads_of_chase {unseen : List String} {ty : TypeRef}
    (h : types.isTypedef (types.chase unseen ty).2 = false) :
    Leads types ty (types.chase unseen ty).1 (types.chase unseen ty).2 := by
  induction unseen, ty using chase.induct types with
  | case1 unseen name t hd hm _ _ _ ih =>
    rw [Types.chase] at h ⊢
    simp only [hd, hm, if_true] at h ⊢
    exact .step hd (ih h)
  | case2 unseen name t hd hm =>
    rw [Types.chase] at h
    simp only [hd, hm, if_false] at h
    simp [isTypedef_user hd] at h
  | case3 unseen name hd =>
    rw [Types.chase] at h ⊢
    split at h
    · next t ht => exact absurd ht (hd t)
    · exact .here h
  | case4 unseen ty hd =>
    rw [Types.chase] at h ⊢
    · exact .here h
    · exact hd
    · exact hd

theorem leads_iff {ty target : TypeRef} {aliases : List (String × Typedef)} :
    Leads types ty aliases target
      ↔ types.isCircular ty = false ∧ types.resolve ty = (aliases, target) := by
  constructor
  · intro h
    have hr : types.resolve ty = (aliases, target) := h.chase h.names
    exact ⟨by rw [isCircular, effective, hr]; exact h.target, hr⟩
  · rintro ⟨hc, hr⟩
    have hchase : types.chase types.names ty = (aliases, target) := hr
    have h : Leads types ty (types.chase types.names ty).1 (types.chase types.names ty).2 :=
      leads_of_chase hc
    rw [hchase] at h
    exact h

/-! ## Types that are no typedefs -/

theorem resolve_of_not_isTypedef {ty : TypeRef} (h : types.isTypedef ty = false) :
    types.resolve ty = ([], ty) := (leads_iff.1 (.here h)).2

theorem isCircular_of_not_isTypedef {ty : TypeRef} (h : types.isTypedef ty = false) :
    types.isCircular ty = false := (leads_iff.1 (.here h)).1

theorem effective_of_leads {ty target : TypeRef} {aliases : List (String × Typedef)}
    (h : Leads types ty aliases target) : types.effective ty = target := by
  rw [effective, (leads_iff.1 h).2]

/-- A typedef stands for the type that its target stands for. -/
theorem effective_typedef {name : String} {t : Typedef}
    (hd : types.get? name = some (.typedef t)) (hc : types.isCircular (.user name) = false) :
    types.effective (.user name) = types.effective t.type := by
  have hl : Leads types (.user name) (types.resolve (.user name)).1
      (types.resolve (.user name)).2 :=
    leads_iff.2 ⟨hc, rfl⟩
  cases hr : types.resolve (.user name) with
  | mk aliases target =>
    rw [hr] at hl
    cases hl with
    | here h => simp [isTypedef_user hd] at h
    | step hd' h =>
      rw [hd] at hd'
      cases hd'
      rw [effective, hr, effective_of_leads h]

end Types

end SchemaLang
