import Mathlib.Data.List.Flatten
import SchemaLang.Proofs.Lint.Sites
import SchemaLang.Proofs.Model.Shared
import SchemaLang.Proofs.Model.Worklist

/-!
# Linting a part of a model

The findings about a definition depend on what it needs and on nothing else, so models that share
this find the same.  What the linter lists of a type, it lists with a record of the typedefs that it
may still enter and with a bound on how often it may follow an alias.  Both come from the whole
model; but the bound is never met, and of the record only names that are shared are asked for.

* `Types.Shares.sites`: the sites of a type are the same.
* `Types.Shares.lintDefinition`: the findings about a definition are the same.
* `restrict_exact`: a restricted model has what can be reached, and no findings of its own.
-/

namespace SchemaLang

/-! ## Records -/

theorem SameRecord.filter {S : Set String} {u u' : List String} (h : SameRecord S u u')
    (p : String → Bool) : SameRecord S (u.filter p) (u'.filter p) where
  nodup := h.nodup.filter p
  nodup' := h.nodup'.filter p
  mem_iff name hn := by rw [List.mem_filter, List.mem_filter, h.mem_iff name hn]

theorem length_filter_lt_of_mem {unseen : List String} {aliases : List (String × Typedef)}
    {entered : String × Typedef} (he : entered ∈ aliases) (hm : entered.1 ∈ unseen) :
    (unseen.filter (· ∉ aliases.map Prod.fst)).length < unseen.length := by
  rw [List.length_filter_lt_length_iff_exists]
  exact ⟨entered.1, hm, by simpa using ⟨entered.2, he⟩⟩

/-- Two listings of sites agree, and list types that are written with the names of a set. -/
def SameSites (S : Set String) (sites sites' : List Site) : Prop :=
  sites = sites' ∧ ∀ s ∈ sites, s.type.Within S

theorem SameSites.append {S : Set String} {sites sites' more more' : List Site}
    (h : SameSites S sites sites') (hm : SameSites S more more') :
    SameSites S (sites ++ more) (sites' ++ more') :=
  ⟨by rw [h.1, hm.1], List.forall_mem_append.2 ⟨h.2, hm.2⟩⟩

theorem SameSites.single {S : Set String} {s : Site} (h : s.type.Within S) :
    SameSites S [s] [s] :=
  ⟨rfl, List.forall_mem_singleton.2 h⟩

namespace Types.Shares

variable {S : Set String} {a b : Types}

/-! ## Sites -/

theorem effective {ty : TypeRef} (hs : Shares S a b) (hty : ty.Within S) :
    a.effective ty = b.effective ty ∧ (a.effective ty).Within S :=
  ⟨congrArg Prod.snd (hs.resolve hty), hs.within_resolve hty⟩

theorem isKeyType {ty : TypeRef} (hs : Shares S a b) (hty : ty.Within S) :
    Site.isKeyType a ty = Site.isKeyType b ty := by
  cases ty with
  | user name =>
    rw [Site.isKeyType, Site.isKeyType, hs.get? name (TypeRef.within_user.1 hty)]
  | builtin builtin => cases builtin <;> rfl
  | _ => rfl

theorem problems {s : Site} (hs : Shares S a b) (hty : s.type.Within S) :
    s.problems a = s.problems b := by
  have hr : s.referenceProblems a = s.referenceProblems b := by
    rw [Site.referenceProblems, Site.referenceProblems]
    split
    · next name he =>
      rw [he] at hty
      rw [hs.get? name (TypeRef.within_user.1 hty)]
    · rfl
  have hk : s.keyProblems a = s.keyProblems b := by
    rw [Site.keyProblems, Site.keyProblems]
    split
    · next key keyAttr he =>
      rw [he] at hty
      obtain ⟨hkey, hw⟩ := hs.effective (TypeRef.within_dict hty).2
      simp only [Option.getD_some] at hkey hw
      rw [← hkey, hs.isKeyType hw]
    · rfl
  have ha : s.attributeProblems a = s.attributeProblems b := by
    rw [Site.attributeProblems, Site.attributeProblems, (hs.effective hty).1]
  rw [Site.problems, Site.problems, hr, hk, ha]

variable {u u' : List String}
  {follow follow' : List String → TypeRef → Option Attributes → List Site}

/-- Following an alias leaves fewer names to be entered. -/
theorem innerSites (hs : Shares S a b) (hu : SameRecord S u u')
    (hf : ∀ v v' ty attr, v.length < u.length → v'.length < u'.length → SameRecord S v v' →
      ty.Within S → SameSites S (follow v ty attr) (follow' v' ty attr))
    {ty : TypeRef} {attr : Option Attributes} (hty : ty.Within S)
    (ih : SameSites S (a.sitesWith u follow ty attr) (b.sitesWith u' follow' ty attr)) :
    SameSites S (a.innerSites u follow ty attr) (b.innerSites u' follow' ty attr) := by
  obtain ⟨hc, hw⟩ := hs.chase hu hty
  rw [Types.innerSites, Types.innerSites, ← hc]
  rcases chase_cases a u ty with he | ⟨name, t, rfl, hd, hm⟩
  · rw [he]
    exact ih
  · have hm' : name ∈ u' := (hu.mem_iff name (TypeRef.within_user.1 hty)).1 hm
    rw [chase_step hd hm] at hw ⊢
    exact hf _ _ _ _ (length_filter_lt_of_mem List.mem_cons_self hm)
      (length_filter_lt_of_mem List.mem_cons_self hm') (hu.filter _) hw

theorem sitesWith (hs : Shares S a b) (hu : SameRecord S u u')
    (hf : ∀ v v' ty attr, v.length < u.length → v'.length < u'.length → SameRecord S v v' →
      ty.Within S → SameSites S (follow v ty attr) (follow' v' ty attr))
    (ty : TypeRef) (attr : Option Attributes) (hty : ty.Within S) :
    SameSites S (a.sitesWith u follow ty attr) (b.sitesWith u' follow' ty attr) := by
  induction ty, attr using sitesWith.induct with
  | case1 element elementAttr attr ih =>
    have he := TypeRef.within_array hty
    rw [sitesWith_array, sitesWith_array]
    exact (hs.innerSites hu hf he (ih he)).append (.single hty)
  | case2 value valueAttr keyAttr attr ih =>
    have hv := (TypeRef.within_dict hty).1
    rw [sitesWith_dict, sitesWith_dict, Option.elim_none, Option.elim_none, List.append_nil,
      List.append_nil]
    exact (hs.innerSites hu hf hv (ih hv)).append (.single hty)
  | case3 value valueAttr key keyAttr attr ihv ihk =>
    obtain ⟨hv, hk⟩ := TypeRef.within_dict hty
    rw [sitesWith_dict, sitesWith_dict, Option.elim_some, Option.elim_some]
    exact ((hs.innerSites hu hf hv (ihv hv)).append (hs.innerSites hu hf hk (ihk hk))).append
      (.single hty)
  | case4 ty attr hna hnd hnk =>
    rw [Types.sitesWith.eq_4 _ _ _ _ _ hna hnd hnk, Types.sitesWith.eq_4 _ _ _ _ _ hna hnd hnk]
    exact .single hty

/-- The bounds need not be the same, as long as each is as large as its record. -/
theorem sitesFor (hs : Shares S a b) {count count' : Nat} (hu : SameRecord S u u')
    (hc : u.length ≤ count) (hc' : u'.length ≤ count') (ty : TypeRef) (attr : Option Attributes)
    (hty : ty.Within S) :
    SameSites S (a.sitesFor count u ty attr) (b.sitesFor count' u' ty attr) := by
  induction count generalizing count' u u' ty attr with
  | zero =>
    cases count' <;> exact hs.sitesWith hu (fun _ _ _ _ hl => by omega) ty attr hty
  | succ count ih =>
    cases count' with
    | zero => exact hs.sitesWith hu (fun _ _ _ _ _ hl => by omega) ty attr hty
    | succ count' =>
      refine hs.sitesWith hu ?_ ty attr hty
      intro v v' ty attr hl hl' hv hty
      exact ih hv (by omega) (by omega) ty attr hty

theorem sites {ty : TypeRef} (hs : Shares S a b) (hty : ty.Within S) (attr : Option Attributes) :
    SameSites S (a.sites ty attr) (b.sites ty attr) := by
  refine hs.sitesFor hs.sameRecord_names ?_ ?_ ty attr hty
  · exact Nat.le_of_eq (by rw [NameMap.names, List.length_map, NameMap.size])
  · exact Nat.le_of_eq (by rw [NameMap.names, List.length_map, NameMap.size])

theorem use {ty : TypeRef} (hs : Shares S a b) (hty : ty.Within S) (type : String)
    (member : Option String) (attr : Option Attributes) :
    Lint.use a type member ty attr = Lint.use b type member ty attr := by
  obtain ⟨he, hw⟩ := hs.sites hty attr
  rw [Lint.use, Lint.use, ← he]
  exact List.flatMap_congr fun s hm => by rw [hs.problems (hw s hm)]

/-! ## Definitions -/

theorem invalidBases_congr {kind : BaseKind} {key : String} {isBase isBase' : String → Bool}
    {bases : Option (List String)} (h : ∀ base ∈ bases.getD [], isBase base = isBase' base) :
    Lint.invalidBases kind key isBase bases = Lint.invalidBases kind key isBase' bases := by
  rw [Lint.invalidBases, Lint.invalidBases]
  congr 1
  exact List.filter_congr fun base hb => by rw [h base hb]

theorem items_congr {α : Type} {kind : BaseKind} {key : String} {name : α → String}
    {further further' : α → List Finding} {earlier : List String} {list : List α}
    (h : ∀ item ∈ list, further item = further' item) :
    Lint.items kind key name further earlier list
      = Lint.items kind key name further' earlier list := by
  induction list generalizing earlier with
  | nil => rfl
  | cons item rest ih =>
    obtain ⟨hi, hr⟩ := List.forall_mem_cons.1 h
    rw [Lint.items, Lint.items, hi, ih hr]

theorem lintStruct {key : String} {s : Struct} (hs : Shares S a b) (hk : key ∈ S)
    (hd : a.get? key = some (.struct s)) : Lint.struct a key s = Lint.struct b key s := by
  have hb : ∀ base ∈ s.bases.getD [], base ∈ S := fun base hm =>
    hs.definition hk hd base (Heritage.mentionsBases_struct _ s rfl base hm)
  have hw : a.walk Struct.heritage s = b.walk Struct.heritage s :=
    hs.walk Heritage.named_struct Heritage.mentionsBases_struct hb
  rw [Lint.struct, Lint.struct, ← hw]
  congr 2
  · apply invalidBases_congr
    intro base hm
    rw [Lint.isStructBase, Lint.isStructBase, hs.base? (hb base hm)]
  · exact items_congr fun m hm => hs.use (hs.within_members hk hd m hm) _ _ _

theorem lintEnum {key : String} {e : Enum} (hs : Shares S a b) (hk : key ∈ S)
    (hd : a.get? key = some (.enum e)) : Lint.enum a key e = Lint.enum b key e := by
  have hb : ∀ base ∈ e.bases.getD [], base ∈ S := fun base hm =>
    hs.definition hk hd base (Heritage.mentionsBases_enum _ e rfl base hm)
  have hw : a.walk Enum.heritage e = b.walk Enum.heritage e :=
    hs.walk Heritage.named_enum Heritage.mentionsBases_enum hb
  rw [Lint.enum, Lint.enum, ← hw]
  congr 2
  apply invalidBases_congr
  intro base hm
  rw [Lint.isEnumBase, Lint.isEnumBase, hs.base? (hb base hm)]

theorem sectionMembers {type : String} (hs : Shares S a b) (ht : type ∈ S) :
    Lint.sectionMembers a type = Lint.sectionMembers b type := by
  rw [Lint.sectionMembers, Lint.sectionMembers, ← hs.base? ht]
  split
  · rfl
  · next s hb =>
    have hbases := (hs.exists_of_base? Heritage.named_struct Heritage.mentionsBases_struct ht hb).2
    rw [hs.walk Heritage.named_struct Heritage.mentionsBases_struct hbases]

theorem lintAction {key : String} {d : Action} (hs : Shares S a b) (hk : key ∈ S)
    (hd : a.get? key = some (.action d)) : Lint.action a key d = Lint.action b key d := by
  have ht : ∀ type ∈ Section.all.filterMap d.type?, type ∈ S := hs.definition hk hd
  have hi : ∀ type ∈ Section.inputs.filterMap d.type?, type ∈ S := by
    intro type hm
    obtain ⟨x, -, hx⟩ := List.mem_filterMap.1 hm
    exact ht type (List.mem_filterMap.2 ⟨x, x.mem_all, hx⟩)
  rw [Lint.action, Lint.action]
  congr 1
  · exact List.flatMap_congr fun type hm => hs.use (TypeRef.within_user.2 (ht type hm)) _ _ _
  · rw [List.flatMap_congr fun type hm => hs.sectionMembers (hi type hm)]

theorem lintTypedef {key : String} {t : Typedef} (hs : Shares S a b) (hk : key ∈ S)
    (hd : a.get? key = some (.typedef t)) : Lint.typedef a key t = Lint.typedef b key t := by
  have ht : t.type.Within S := hs.typedef hk hd
  rw [Lint.typedef, Lint.typedef, hs.isCircular ht, hs.use ht]

theorem lintDefinition {key : String} {d : Definition} (hs : Shares S a b) (hk : key ∈ S)
    (hd : a.get? key = some d) : Lint.definition a key d = Lint.definition b key d := by
  rw [Lint.definition.eq_def, Lint.definition.eq_def]
  cases d with
  | struct s => simp only [hs.lintStruct hk hd]
  | enum e => simp only [hs.lintEnum hk hd]
  | typedef t => simp only [hs.lintTypedef hk hd]
  | action d => simp only [hs.lintAction hk hd]

end Types.Shares

/-! ## The part that can be reached -/

/-- The findings about a restricted model are those about its definitions in the whole model. -/
theorem Types.lint_restrict (types : Types) (start : String) :
    (types.restrict start).lint
      = (types.restrict start).entries.flatMap fun e => Lint.definition types e.1 e.2 := by
  rw [lint]
  apply List.flatMap_congr
  intro e he
  have hd : (types.restrict start).get? e.1 = some e.2 := NameMap.get?_eq_some_iff.2 he
  obtain ⟨hget, hreach⟩ := get?_restrict_eq_some_iff.1 hd
  have hs : Shares (types.Needs start) types (types.restrict start) :=
    shares_needs fun _ => get?_restrict_of_needs
  exact (hs.lintDefinition (reachable_iff_needs.1 hreach) hget).symm

theorem Types.sublist_lint_restrict (types : Types) (start : String) :
    (types.restrict start).lint.Sublist types.lint := by
  rw [lint_restrict, lint]
  exact List.filter_sublist.flatMap _

/-- The search for what can be reached from a name ends, in whatever order it goes about it.  It
finds the definitions that can be reached, as they are, and the linter finds nothing in them that
it does not find in the whole model. -/
theorem restrict_exact (types : Types) (start : String) :
    WellFounded (fun after before => types.Step before after)
      ∧ (∀ s, (∃ next, types.Step s next) ↔ s.pending ≠ [])
      ∧ (∀ found, types.Searches (.init start) ⟨found, []⟩ ↔ found = types.restrict start)
      ∧ (∀ name d, (types.restrict start).get? name = some d
          ↔ types.get? name = some d ∧ types.Reachable start name)
      ∧ (types.restrict start).lint.Sublist types.lint
      ∧ (types.lint = [] → (types.restrict start).lint = []) := by
  have hlint := types.sublist_lint_restrict start
  refine ⟨types.wellFounded_step, fun _ => Types.exists_step_iff, fun _ => Types.searches_iff,
    fun _ _ => Types.get?_restrict_eq_some_iff, hlint, ?_⟩
  intro h
  rw [h] at hlint
  exact List.sublist_nil.1 hlint

/-- Trees whose marks are the keys of a dict, with a base behind an alias, and a struct that no
tree needs. -/
def Types.trees : Types :=
  .ofList
    [("Branches", .typedef { name := "Branches", type := .array (.user "Tree") none }),
      ("Mark", .enum { name := "Mark", values := some [{ name := "cut" }] }),
      ("Node", .typedef { name := "Node", type := .user "Plant" }),
      ("Plant", .struct
        { name := "Plant"
          members := some
            [{ name := "marks"
               type := .dict (.builtin .int) none (some (.user "Mark")) none }] }),
      ("Stone", .struct
        { name := "Stone", members := some [{ name := "on", type := .user "Tree" }] }),
      ("Tree", .struct
        { name := "Tree"
          bases := some ["Node"]
          members := some [{ name := "branches", type := .user "Branches" }] })]

theorem restrict_exact_trees :
    Types.trees.lint = [] ∧ (Types.trees.restrict "Tree").lint = []
      ∧ (Types.trees.restrict "Tree").names = ["Branches", "Mark", "Node", "Plant", "Tree"] := by
  have h : Types.trees.lint = [] := by decide +kernel
  exact ⟨h, (restrict_exact Types.trees "Tree").2.2.2.2.2 h, by decide +kernel⟩

end SchemaLang
