import SchemaLang.Lint
import SchemaLang.Proofs.WellFormed

/-!
# The sites that the linter lists

The linter follows the aliases of what stands in a container and lists what they stand for, so it
does not list the sites that a type is written with.  When all aliases end and all typedefs are
judged, both come to the same.

* `Site.problems_eq_nil_iff`: a site has no problems when it is sensible.
* `Site.wellFormed_of_use`, `Site.use_of_wellFormed`: a type is used without findings when all
  sites within it are sensible.
-/

namespace SchemaLang

/-- The chains of aliases end. -/
def Types.AliasesEnd (types : Types) : Prop :=
  ∀ name t, types.get? name = some (.typedef t) →
    ∃ aliases target, types.Leads t.type aliases target

/-- The types of all typedefs are well-formed sites. -/
def Types.TypedefsFormed (types : Types) : Prop :=
  ∀ name t, types.get? name = some (.typedef t) → Site.WellFormed types ⟨t.type, t.attr⟩

variable {types : Types}

/-! ## Aliases -/

namespace Types

theorem AliasesEnd.leads (h : types.AliasesEnd) (ty : TypeRef) :
    ∃ aliases, types.Leads ty aliases (types.effective ty) := by
  have hc : ∃ aliases target, types.Leads ty aliases target := by
    by_cases ht : types.isTypedef ty = true
    · obtain ⟨name, t, rfl, hd⟩ := exists_typedef ht
      obtain ⟨aliases, target, hl⟩ := h name t hd
      exact ⟨_, target, .step hd hl⟩
    · exact ⟨[], ty, .here (Bool.eq_false_iff.2 ht)⟩
  obtain ⟨aliases, target, hl⟩ := hc
  rw [effective_of_leads hl]
  exact ⟨aliases, hl⟩

/-- A chase enters nothing, or a typedef. -/
theorem chase_cases (types : Types) (unseen : List String) (ty : TypeRef) :
    types.chase unseen ty = ([], ty)
      ∨ ∃ name t, ty = .user name ∧ types.get? name = some (.typedef t) ∧ name ∈ unseen := by
  cases ty with
  | user name =>
    rw [chase]
    split
    · next t hd =>
      by_cases hm : name ∈ unseen
      · exact .inr ⟨name, t, rfl, hd, hm⟩
      · exact .inl (if_neg hm)
    · exact .inl rfl
  | _ => exact .inl (by rw [chase]; simp)

/-- A chase that enters a typedef stops at the target of a typedef, on the same chain. -/
theorem exists_target {unseen : List String} {ty : TypeRef}
    (h : (types.chase unseen ty).1 ≠ []) :
    ∃ name t, types.get? name = some (.typedef t) ∧ (types.chase unseen ty).2 = t.type
      ∧ ∀ {rest target}, types.Leads t.type rest target →
        ∃ aliases, types.Leads ty aliases target := by
  induction unseen, ty using chase.induct types with
  | case1 unseen name t hd hm _ _ _ ih =>
    rw [chase_step hd hm]
    rcases chase_cases types (unseen.erase name) t.type with hc | ⟨name', t', ht, hd', hm'⟩
    · rw [hc]
      exact ⟨name, t, hd, rfl, fun hl => ⟨_, .step hd hl⟩⟩
    · obtain ⟨n, u, hn, hu, hl⟩ := ih (by rw [ht, chase_step hd' hm']; simp)
      refine ⟨n, u, hn, hu, fun hr => ?_⟩
      obtain ⟨aliases, hl⟩ := hl hr
      exact ⟨_, .step hd hl⟩
  | case2 unseen name t hd hm =>
    rw [chase] at h
    simp only [hd, hm, if_false] at h
    exact absurd rfl h
  | case3 unseen name hd =>
    rw [chase] at h
    split at h
    · next t ht => exact absurd ht (hd t)
    · exact absurd rfl h
  | case4 unseen ty hd =>
    rw [chase] at h
    · exact absurd rfl h
    · exact hd

end Types

/-! ## One site -/

theorem TypeRef.measure?_eq_some_iff {ty : TypeRef} {m : Measure} :
    ty.measure? = some m ↔ ty.Admits m := by
  constructor
  · intro h
    cases ty with
    | builtin b => cases b <;> cases h <;> constructor
    | user name => simp [measure?] at h
    | array element attr => cases h; exact .array
    | dict value attr key keyAttr => cases h; exact .dict
  · intro h
    cases h <;> rfl

theorem TypeRef.isKey_iff {ty : TypeRef} : Site.isKeyType types ty = true ↔ ty.IsKey types := by
  constructor
  · intro h
    cases ty with
    | builtin b => cases b <;> simp [Site.isKeyType] at h; exact .string
    | user name =>
      rw [Site.isKeyType] at h
      split at h
      · next e hd => exact .enum hd
      · simp at h
    | array element attr => simp [Site.isKeyType] at h
    | dict value attr key keyAttr => simp [Site.isKeyType] at h
  · intro h
    cases h with
    | string => rfl
    | enum hd => simp [Site.isKeyType, hd]

namespace Site

theorem referenceProblems_eq_nil_iff {s : Site} :
    s.referenceProblems types = [] ↔ ∀ {name}, s.type = .user name → types.IsType name := by
  cases hs : s.type with
  | user name =>
    simp only [referenceProblems, hs, Types.IsType]
    cases hd : types.get? name with
    | none => simp [hd]
    | some d => cases d <;> simp [hd]
  | _ => simp [referenceProblems, hs]

theorem keyProblems_eq_nil_iff (ha : types.AliasesEnd) {s : Site} :
    s.keyProblems types = [] ↔ ∀ {value key attr keyAttr},
      s.type = .dict value attr (some key) keyAttr →
        ∃ aliases target, types.Leads key aliases target ∧ target.IsKey types := by
  cases hs : s.type with
  | dict value attr key keyAttr =>
    cases key with
    | none => simp [keyProblems, hs]
    | some key =>
      obtain ⟨aliases, hl⟩ := ha.leads key
      have hk : s.keyProblems types = [] ↔ (types.effective key).IsKey types := by
        simp only [keyProblems, hs, ← TypeRef.isKey_iff]
        split <;> simp_all
      rw [hk]
      constructor
      · rintro h _ _ _ _ he
        cases he
        exact ⟨aliases, _, hl, h⟩
      · intro h
        obtain ⟨_, target, hl', ht⟩ := h rfl
        rw [(hl.unique hl').2]
        exact ht
  | _ => simp [keyProblems, hs]

theorem attributeProblems_eq_nil_iff (ha : types.AliasesEnd) {s : Site} :
    s.attributeProblems types = [] ↔ ∀ {a b}, s.attr = some a → b ∈ a.bounds →
      ∃ aliases target, types.Leads s.type aliases target ∧ target.Admits b.measure := by
  obtain ⟨aliases, hl⟩ := ha.leads s.type
  cases hs : s.attr with
  | none => simp [attributeProblems, hs]
  | some attr =>
    have hk : s.attributeProblems types = []
        ↔ ∀ b ∈ attr.bounds, (types.effective s.type).Admits b.measure := by
      simp only [attributeProblems, hs, ← TypeRef.measure?_eq_some_iff]
      simp [List.filter_eq_nil_iff]
    rw [hk]
    constructor
    · rintro h a b ⟨⟩ hb
      exact ⟨aliases, _, hl, h b hb⟩
    · intro h b hb
      obtain ⟨_, target, hl', ht⟩ := h rfl hb
      rw [(hl.unique hl').2]
      exact ht

theorem problems_eq_nil_iff (ha : types.AliasesEnd) {s : Site} :
    s.problems types = [] ↔ s.Sensible types := by
  rw [problems, List.append_eq_nil_iff, List.append_eq_nil_iff, referenceProblems_eq_nil_iff,
    keyProblems_eq_nil_iff ha, attributeProblems_eq_nil_iff ha]
  constructor
  · rintro ⟨⟨ht, hk⟩, hb⟩
    exact ⟨ht, hk, hb⟩
  · rintro ⟨ht, hk, hb⟩
    exact ⟨⟨ht, hk⟩, hb⟩

theorem Part.eq_or_all {ty : TypeRef} {attr : Option Attributes} {p : Site}
    (h : Part ⟨ty, attr⟩ p) : p = ⟨ty, attr⟩ ∨ ∀ attr', Part ⟨ty, attr'⟩ p := by
  cases h with
  | whole => exact .inl rfl
  | element h => exact .inr fun _ => .element h
  | value h => exact .inr fun _ => .value h
  | key h => exact .inr fun _ => .key h

end Site

/-! ## All sites of a type -/

namespace Types

/-- The sites of what stands in a container, its alias followed. -/
def innerSites (types : Types) (unseen : List String)
    (follow : List String → TypeRef → Option Attributes → List Site) (ty : TypeRef)
    (attr : Option Attributes) : List Site :=
  match types.chase unseen ty with
  | ([], _) => types.sitesWith unseen follow ty attr
  | (aliases, target) => follow (unseen.filter (· ∉ aliases.map Prod.fst)) target attr

variable {unseen : List String} {follow : List String → TypeRef → Option Attributes → List Site}

theorem sitesWith_array {element : TypeRef} {elementAttr attr : Option Attributes} :
    types.sitesWith unseen follow (.array element elementAttr) attr
      = types.innerSites unseen follow element elementAttr
        ++ [⟨.array element elementAttr, attr⟩] := by
  rw [sitesWith]
  rfl

theorem sitesWith_dict {value : TypeRef} {valueAttr keyAttr attr : Option Attributes}
    {key : Option TypeRef} :
    types.sitesWith unseen follow (.dict value valueAttr key keyAttr) attr
      = types.innerSites unseen follow value valueAttr
        ++ key.elim [] (fun key => types.innerSites unseen follow key keyAttr)
        ++ [⟨.dict value valueAttr key keyAttr, attr⟩] := by
  cases key with
  | none => rw [sitesWith, Option.elim_none, List.append_nil]; rfl
  | some key => rw [sitesWith]; rfl

theorem mem_sitesWith_self {ty : TypeRef} {attr : Option Attributes} :
    (⟨ty, attr⟩ : Site) ∈ types.sitesWith unseen follow ty attr := by
  cases ty with
  | array element elementAttr => simp [sitesWith_array]
  | dict value valueAttr key keyAttr => simp [sitesWith_dict]
  | _ => simp [sitesWith]

theorem mem_sitesFor_self {count : Nat} {ty : TypeRef} {attr : Option Attributes} :
    (⟨ty, attr⟩ : Site) ∈ types.sitesFor count unseen ty attr := by
  cases count <;> exact mem_sitesWith_self

/-! ### What is listed tells of what is written -/

theorem sensible_of_innerSites
    (hf : unseen ≠ [] → ∀ unseen ty attr, (⟨ty, attr⟩ : Site) ∈ follow unseen ty attr)
    {ty : TypeRef} {attr : Option Attributes} {p : Site} (hp : Site.Part ⟨ty, attr⟩ p)
    (ih : (∀ q ∈ types.sitesWith unseen follow ty attr, q.Sensible types) → p.Sensible types)
    (h : ∀ q ∈ types.innerSites unseen follow ty attr, q.Sensible types) : p.Sensible types := by
  rw [innerSites] at h
  rcases chase_cases types unseen ty with hc | ⟨name, t, rfl, hd, hm⟩
  · rw [hc] at h
    exact ih h
  · have hne : (types.chase unseen (.user name)).1 ≠ [] := by rw [chase_step hd hm]; simp
    obtain ⟨n, u, hn, hu, hl⟩ := exists_target hne
    rw [chase_step hd hm] at h hu
    obtain rfl : p = ⟨.user name, attr⟩ := by
      cases hp
      rfl
    have ht := h _ (hf (List.ne_nil_of_mem hm) _ _ _)
    refine ⟨?_, by simp, ?_⟩
    · rintro _ ⟨⟩
      exact ⟨_, hd, by simp⟩
    · intro a b ha hb
      obtain ⟨rest, target, hr, hadm⟩ := ht.admits ha hb
      rw [hu] at hr
      obtain ⟨aliases, hl⟩ := hl hr
      exact ⟨aliases, target, hl, hadm⟩

theorem wellFormed_of_sitesWith
    (hf : unseen ≠ [] → ∀ unseen ty attr, (⟨ty, attr⟩ : Site) ∈ follow unseen ty attr) {s : Site}
    (h : ∀ q ∈ types.sitesWith unseen follow s.type s.attr, q.Sensible types) :
    s.WellFormed types := by
  intro p hp
  induction hp with
  | whole => exact h _ mem_sitesWith_self
  | element hp ih =>
    rw [sitesWith_array] at h
    exact sensible_of_innerSites hf hp ih fun q hq => h q (List.mem_append_left _ hq)
  | value hp ih =>
    rw [sitesWith_dict] at h
    exact sensible_of_innerSites hf hp ih fun q hq =>
      h q (List.mem_append_left _ (List.mem_append_left _ hq))
  | key hp ih =>
    rw [sitesWith_dict] at h
    exact sensible_of_innerSites hf hp ih fun q hq =>
      h q (List.mem_append_left _ (List.mem_append_right _ hq))

/-! ### What is written tells of what is listed -/

/-- What a name stands for may stand where the name stands. -/
theorem wellFormed_target (ha : types.AliasesEnd) (ht : types.TypedefsFormed)
    {ty : TypeRef} {attr : Option Attributes} (hne : (types.chase unseen ty).1 ≠ [])
    (h : Site.WellFormed types ⟨ty, attr⟩) :
    Site.WellFormed types ⟨(types.chase unseen ty).2, attr⟩ := by
  obtain ⟨name, t, hd, hu, hl⟩ := exists_target hne
  rw [hu]
  intro p hp
  rcases hp.eq_or_all with rfl | hp
  · have hs := ht name t hd _ .whole
    refine ⟨hs.isType, hs.isKey, ?_⟩
    intro a b he hb
    obtain ⟨_, target, hn, hadm⟩ := (h _ .whole).admits he hb
    obtain ⟨rest, hr⟩ := ha.leads t.type
    obtain ⟨_, hl⟩ := hl hr
    rw [(hn.unique hl).2] at hadm
    exact ⟨rest, _, hr, hadm⟩
  · exact ht name t hd p (hp _)

theorem sensible_of_mem_innerSites (ha : types.AliasesEnd) (ht : types.TypedefsFormed)
    (hf : ∀ unseen ty attr, Site.WellFormed types ⟨ty, attr⟩ →
      ∀ q ∈ follow unseen ty attr, q.Sensible types)
    {ty : TypeRef} {attr : Option Attributes} (h : Site.WellFormed types ⟨ty, attr⟩)
    (ih : ∀ q ∈ types.sitesWith unseen follow ty attr, q.Sensible types) :
    ∀ q ∈ types.innerSites unseen follow ty attr, q.Sensible types := by
  rw [innerSites]
  split
  · exact ih
  · next aliases target hne hc =>
    have hne' : (types.chase unseen ty).1 ≠ [] := by
      rw [hc]
      exact hne
    have hw := wellFormed_target ha ht hne' h
    rw [hc] at hw
    exact hf _ _ _ hw

theorem sensible_of_mem_sitesWith (ha : types.AliasesEnd) (ht : types.TypedefsFormed)
    (hf : ∀ unseen ty attr, Site.WellFormed types ⟨ty, attr⟩ →
      ∀ q ∈ follow unseen ty attr, q.Sensible types)
    {ty : TypeRef} {attr : Option Attributes} (h : Site.WellFormed types ⟨ty, attr⟩) :
    ∀ q ∈ types.sitesWith unseen follow ty attr, q.Sensible types := by
  induction ty, attr using sitesWith.induct with
  | case1 element elementAttr attr ih =>
    have he : Site.WellFormed types ⟨element, elementAttr⟩ := fun p hp => h p (.element hp)
    rw [sitesWith_array, List.forall_mem_append]
    refine ⟨sensible_of_mem_innerSites ha ht hf he (ih he), ?_⟩
    exact List.forall_mem_singleton.2 (h _ .whole)
  | case2 value valueAttr keyAttr attr ih =>
    have hv : Site.WellFormed types ⟨value, valueAttr⟩ := fun p hp => h p (.value hp)
    rw [sitesWith_dict, Option.elim_none, List.append_nil, List.forall_mem_append]
    refine ⟨sensible_of_mem_innerSites ha ht hf hv (ih hv), ?_⟩
    exact List.forall_mem_singleton.2 (h _ .whole)
  | case3 value valueAttr key keyAttr attr ihv ihk =>
    have hv : Site.WellFormed types ⟨value, valueAttr⟩ := fun p hp => h p (.value hp)
    have hk : Site.WellFormed types ⟨key, keyAttr⟩ := fun p hp => h p (.key hp)
    rw [sitesWith_dict, Option.elim_some, List.forall_mem_append, List.forall_mem_append]
    refine ⟨⟨sensible_of_mem_innerSites ha ht hf hv (ihv hv),
      sensible_of_mem_innerSites ha ht hf hk (ihk hk)⟩, ?_⟩
    exact List.forall_mem_singleton.2 (h _ .whole)
  | case4 ty attr hna hnd hnk =>
    rw [sitesWith]
    · exact List.forall_mem_singleton.2 (h _ .whole)
    · exact hna
    · exact hnd
    · exact hnk

theorem sensible_of_mem_sitesFor (ha : types.AliasesEnd) (ht : types.TypedefsFormed)
    (count : Nat) (unseen : List String) (ty : TypeRef) (attr : Option Attributes)
    (h : Site.WellFormed types ⟨ty, attr⟩) :
    ∀ q ∈ types.sitesFor count unseen ty attr, q.Sensible types := by
  induction count generalizing unseen ty attr with
  | zero => exact sensible_of_mem_sitesWith ha ht (by simp) h
  | succ count ih => exact sensible_of_mem_sitesWith ha ht ih h

end Types

/-! ## The use of a type -/

namespace Site

variable {type : String} {member : Option String} {ty : TypeRef} {attr : Option Attributes}

theorem use_eq_nil_iff : Lint.use types type member ty attr = []
    ↔ ∀ q ∈ types.sites ty attr, q.problems types = [] := by
  simp only [Lint.use, List.flatMap_eq_nil_iff, List.map_eq_nil_iff]

theorem wellFormed_of_use (ha : types.AliasesEnd) (h : Lint.use types type member ty attr = []) :
    Site.WellFormed types ⟨ty, attr⟩ := by
  have hs : ∀ q ∈ types.sites ty attr, q.Sensible types := fun q hq =>
    (problems_eq_nil_iff ha).1 (use_eq_nil_iff.1 h q hq)
  rw [Types.sites] at hs
  cases hc : types.size with
  | zero =>
    -- there are no typedefs to be followed
    have hn : types.names = [] := by
      rw [← List.length_eq_zero_iff, NameMap.names, List.length_map]
      exact hc
    rw [hc] at hs
    exact Types.wellFormed_of_sitesWith (fun hne => absurd hn hne) hs
  | succ count =>
    rw [hc] at hs
    exact Types.wellFormed_of_sitesWith (fun _ _ _ _ => Types.mem_sitesFor_self) hs

theorem use_of_wellFormed (ha : types.AliasesEnd) (ht : types.TypedefsFormed)
    (h : Site.WellFormed types ⟨ty, attr⟩) : Lint.use types type member ty attr = [] :=
  use_eq_nil_iff.2 fun q hq =>
    (problems_eq_nil_iff ha).2 (Types.sensible_of_mem_sitesFor ha ht _ _ _ _ h q hq)

end Site

end SchemaLang
