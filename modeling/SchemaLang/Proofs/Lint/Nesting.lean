import Mathlib.Data.Fintype.EquivFin
import Mathlib.Data.Fintype.Card
import Mathlib.Data.Fintype.Sets
import SchemaLang.Proofs.Alias.Cycle
import SchemaLang.Proofs.Lint.Restriction

/-!
# Types that stand inside themselves

The linter goes into every alias that stands in an array or a dict, and it keeps no record of where
it has been.  So there is room enough for it exactly if no typedef stands inside itself, however
many aliases, arrays and dicts lie between.  What stands inside a type is then grounded, and a
listing that enters each typedef once, as `Types.sites` does, leaves nothing out: the typedefs that
it has entered on its way are met no more.

* `Types.grounded_of_not_selfContaining`: the typedefs of a model are finitely many, so an endless
  descent comes to one of them twice.
* `Types.lists_iff`: what is listed where there is an end.
* `Types.lints_iff`: the linter comes to an end unless a typedef stands inside itself.
-/

namespace SchemaLang

/-- An array is written with its elements, a dict with its values and its keys. -/
inductive TypeRef.Holds : TypeRef → TypeRef → Prop
  | element {element : TypeRef} {attr : Option Attributes} : Holds (.array element attr) element
  | value {value : TypeRef} {attr keyAttr : Option Attributes} {key : Option TypeRef} :
      Holds (.dict value attr key keyAttr) value
  | key {value key : TypeRef} {attr keyAttr : Option Attributes} :
      Holds (.dict value attr (some key) keyAttr) key

theorem TypeRef.Holds.sizeOf_lt {outer held : TypeRef} (h : outer.Holds held) :
    sizeOf held < sizeOf outer := by
  cases h <;> simp only [TypeRef.array.sizeOf_spec, TypeRef.dict.sizeOf_spec,
    Option.some.sizeOf_spec] <;> omega

namespace Types

/-- A type stands inside an array or a dict, the aliases there followed. -/
def Contains (types : Types) (outer inner : TypeRef) : Prop :=
  ∃ held, outer.Holds held ∧ types.effective held = inner

/-- There is an end to what stands inside a type. -/
def Grounded (types : Types) (ty : TypeRef) : Prop :=
  Acc (fun inner outer => types.Contains outer inner) ty

/-- What a typedef is an alias of stands inside itself. -/
def SelfContaining (types : Types) : Prop :=
  ∃ name t, types.get? name = some (.typedef t)
    ∧ Relation.TransGen types.Contains t.type t.type

variable {types : Types}

/-! ## Types with an end -/

theorem Grounded.inner {outer inner : TypeRef} (h : types.Grounded outer)
    (hc : types.Contains outer inner) : types.Grounded inner := h.inv hc

theorem Grounded.not_transGen {ty : TypeRef} (h : types.Grounded ty) :
    ¬Relation.TransGen types.Contains ty ty := by
  induction h with
  | intro ty _ ih =>
    intro hround
    obtain ⟨inner, hc, hr⟩ := Relation.TransGen.head'_iff.1 hround
    exact ih inner hc (Relation.TransGen.tail' hr hc)

/-- An alias stands for itself or for what a typedef is an alias of. -/
theorem effective_cases (types : Types) (ty : TypeRef) :
    types.effective ty = ty
      ∨ ∃ name t, types.get? name = some (.typedef t) ∧ types.effective ty = t.type := by
  rcases chase_cases types types.names ty with hc | ⟨name, t, rfl, hd, hm⟩
  · left
    rw [effective, resolve, hc]
  · have hne : (types.chase types.names (.user name)).1 ≠ [] := by
      rw [chase_step hd hm]
      simp
    obtain ⟨n, u, hn, hu, -⟩ := exists_target hne
    exact .inr ⟨n, u, hn, hu⟩

/-- A type is written with ever smaller types until it comes to a typedef. -/
theorem grounded_of_typedefs {ty : TypeRef}
    (h : ∀ name t, types.get? name = some (.typedef t) →
      Relation.TransGen types.Contains ty t.type → types.Grounded t.type) : types.Grounded ty := by
  induction hn : sizeOf ty using Nat.strongRecOn generalizing ty with
  | _ n ih =>
    refine ⟨_, ?_⟩
    rintro _ ⟨held, ho, rfl⟩
    rcases types.effective_cases held with he | ⟨name, t, hd, he⟩
    · rw [he]
      refine ih _ (hn ▸ ho.sizeOf_lt) (fun name t hd ht => ?_) rfl
      exact h name t hd (.head ⟨held, ho, he⟩ ht)
    · rw [he]
      exact h name t hd (.single ⟨held, ho, he⟩)

/-- What one typedef is an alias of contains what the other one is an alias of. -/
def Encloses (types : Types) (outer inner : String) : Prop :=
  ∃ t u, types.get? outer = some (.typedef t) ∧ types.get? inner = some (.typedef u)
    ∧ Relation.TransGen types.Contains t.type u.type

theorem wellFounded_encloses (h : ¬types.SelfContaining) :
    WellFounded fun inner outer : { name // name ∈ types.names } =>
      types.Encloses outer.1 inner.1 := by
  have hirrefl : Std.Irrefl fun inner outer : { name // name ∈ types.names } =>
      types.Encloses outer.1 inner.1 := by
    refine ⟨?_⟩
    rintro ⟨name, _⟩ ⟨t, u, ht, hu, hround⟩
    cases ht.symm.trans hu
    exact h ⟨name, t, ht, hround⟩
  have htrans : IsTrans _ fun inner outer : { name // name ∈ types.names } =>
      types.Encloses outer.1 inner.1 := by
    refine ⟨?_⟩
    rintro _ _ _ ⟨t, u, ht, hu, htu⟩ ⟨s, t', hs, ht', hst⟩
    cases ht.symm.trans ht'
    exact ⟨s, u, hs, hu, hst.trans htu⟩
  exact Finite.wellFounded_of_trans_of_irrefl _

theorem grounded_of_not_selfContaining (h : ¬types.SelfContaining) (ty : TypeRef) :
    types.Grounded ty := by
  have htypedef : ∀ name : { name // name ∈ types.names }, ∀ t,
      types.get? name.1 = some (.typedef t) → types.Grounded t.type := by
    intro name
    induction name using (wellFounded_encloses h).induction with
    | _ name ih =>
      intro t hd
      refine grounded_of_typedefs fun inner u hu hc => ?_
      exact ih ⟨inner, NameMap.mem_names_of_get? hu⟩ ⟨t, u, hd, hu, hc⟩ u hu
  exact grounded_of_typedefs fun name t hd _ => htypedef ⟨name, NameMap.mem_names_of_get? hd⟩ t hd

/-! ## Following aliases with another record -/

/-- Records that agree on the typedefs of a chain lead along it in the same way. -/
theorem chase_congr {u v : List String} {ty : TypeRef}
    (h : SameRecord {name | Relation.ReflTransGen types.Follows ty (.user name)
      ∧ types.isTypedef (.user name) = true} u v) : types.chase u ty = types.chase v ty := by
  induction u, ty using chase_induct types generalizing v with
  | stop u ty ht => rw [chase_of_not_isTypedef ht, chase_of_not_isTypedef ht]
  | again u name t hd hm =>
    have hm' : name ∉ v := fun hv => hm ((h.mem_iff name ⟨.refl, isTypedef_user hd⟩).2 hv)
    rw [chase_again hd hm, chase_again hd hm']
  | next u name t hd hm ih =>
    have hm' : name ∈ v := (h.mem_iff name ⟨.refl, isTypedef_user hd⟩).1 hm
    have hnext := ih <| (h.erase name).mono <| by
      rintro other ⟨hf, ht⟩
      exact ⟨.head (.typedef hd) hf, ht⟩
    rw [chase_step hd hm, chase_step hd hm', hnext]

/-- A name from which the chain goes on stands for what the chain ends in. -/
theorem effective_of_follows {a b target : TypeRef} (ha : types.EndsIn b target)
    (h : Relation.ReflTransGen types.Follows a b) : types.effective a = target :=
  effective_of_endsIn ⟨h.trans ha.1, ha.2⟩

/-! ## Listings that come to an end -/

/-- With some room the sites of a type are listed. -/
def Lists (types : Types) (ty : TypeRef) (attr : Option Attributes) (sites : List Site) : Prop :=
  ∃ room, types.sites? room ty attr = some sites

theorem sites?_mono {room more : Nat} (hl : room ≤ more) {ty : TypeRef} {attr : Option Attributes}
    {sites : List Site} (h : types.sites? room ty attr = some sites) :
    types.sites? more ty attr = some sites := by
  induction room generalizing more ty attr sites with
  | zero => simp [sites?] at h
  | succ room ih =>
    obtain ⟨more, rfl⟩ : ∃ n, more = n + 1 := ⟨more - 1, by omega⟩
    have hl := Nat.le_of_succ_le_succ hl
    cases ty with
    | builtin b => exact h
    | user name => exact h
    | array element elementAttr =>
      obtain ⟨inner, hi, he⟩ := Option.bind_eq_some_iff.1 h
      exact Option.bind_eq_some_iff.2 ⟨inner, ih hl hi, he⟩
    | dict value valueAttr key keyAttr =>
      cases key with
      | none =>
        obtain ⟨inner, hi, he⟩ := Option.bind_eq_some_iff.1 h
        exact Option.bind_eq_some_iff.2 ⟨inner, ih hl hi, he⟩
      | some key =>
        obtain ⟨inner, hi, h⟩ := Option.bind_eq_some_iff.1 h
        obtain ⟨keys, hk, he⟩ := Option.bind_eq_some_iff.1 h
        exact Option.bind_eq_some_iff.2
          ⟨inner, ih hl hi, Option.bind_eq_some_iff.2 ⟨keys, ih hl hk, he⟩⟩

theorem Lists.exists_common {ty ty' : TypeRef} {attr attr' : Option Attributes}
    {sites sites' : List Site} (h : types.Lists ty attr sites) (h' : types.Lists ty' attr' sites') :
    ∃ room, types.sites? room ty attr = some sites ∧ types.sites? room ty' attr' = some sites' := by
  obtain ⟨m, hm⟩ := h
  obtain ⟨n, hn⟩ := h'
  exact ⟨max m n, sites?_mono (Nat.le_max_left m n) hm, sites?_mono (Nat.le_max_right m n) hn⟩

theorem Lists.unique {ty : TypeRef} {attr : Option Attributes} {sites other : List Site}
    (h : types.Lists ty attr sites) (ho : types.Lists ty attr other) : sites = other := by
  obtain ⟨_, hsites, hother⟩ := h.exists_common ho
  exact Option.some.inj (hsites.symm.trans hother)

section

variable {element value key : TypeRef} {elementAttr valueAttr keyAttr attr : Option Attributes}
  {inner keys : List Site}

theorem Lists.array (h : types.Lists (types.effective element) elementAttr inner) :
    types.Lists (.array element elementAttr) attr
      (inner ++ [⟨.array element elementAttr, attr⟩]) := by
  obtain ⟨room, h⟩ := h
  exact ⟨room + 1, Option.bind_eq_some_iff.2 ⟨inner, h, rfl⟩⟩

theorem Lists.values (h : types.Lists (types.effective value) valueAttr inner) :
    types.Lists (.dict value valueAttr none keyAttr) attr
      (inner ++ [⟨.dict value valueAttr none keyAttr, attr⟩]) := by
  obtain ⟨room, h⟩ := h
  exact ⟨room + 1, Option.bind_eq_some_iff.2 ⟨inner, h, rfl⟩⟩

theorem Lists.dict (h : types.Lists (types.effective value) valueAttr inner)
    (hk : types.Lists (types.effective key) keyAttr keys) :
    types.Lists (.dict value valueAttr (some key) keyAttr) attr
      (inner ++ keys ++ [⟨.dict value valueAttr (some key) keyAttr, attr⟩]) := by
  obtain ⟨room, hvalue, hkey⟩ := h.exists_common hk
  exact ⟨room + 1, Option.bind_eq_some_iff.2
    ⟨inner, hvalue, Option.bind_eq_some_iff.2 ⟨keys, hkey, rfl⟩⟩⟩

end

/-! ## Listing the sites of a grounded type -/

/-- The typedefs that stand inside a type are on a record. -/
def Ahead (types : Types) (unseen : List String) (ty : TypeRef) : Prop :=
  ∀ outer held name, Relation.ReflTransGen types.Contains ty outer → outer.Holds held →
    Relation.ReflTransGen types.Follows held (.user name) → types.isTypedef (.user name) = true →
    name ∈ unseen

theorem ahead_names (ty : TypeRef) : types.Ahead types.names ty := by
  intro outer held name _ _ _ ht
  obtain ⟨_, t, ⟨⟩, hd⟩ := exists_typedef ht
  exact NameMap.mem_names_of_get? hd

theorem Ahead.inner {unseen : List String} {outer inner : TypeRef} (h : types.Ahead unseen outer)
    (hc : types.Contains outer inner) : types.Ahead unseen inner :=
  fun outer' held name hr => h outer' held name (.head hc hr)

/-- What is ahead is followed as if nothing had been seen. -/
theorem Ahead.chase_eq_resolve {unseen : List String} {outer held : TypeRef}
    (h : types.Ahead unseen outer) (hn : unseen.Nodup) (ho : outer.Holds held) :
    types.chase unseen held = types.resolve held := by
  refine chase_congr ⟨hn, NameMap.nodup_names types, ?_⟩
  rintro name ⟨hf, ht⟩
  exact iff_of_true (h outer held name .refl ho hf ht)
    (ahead_names outer outer held name .refl ho hf ht)

/-- The typedefs that have been entered do not stand inside what they have led to. -/
theorem Ahead.entered {unseen : List String} {outer held : TypeRef} (h : types.Ahead unseen outer)
    (hg : types.Grounded outer) (hn : unseen.Nodup) (ho : outer.Holds held) :
    types.Ahead (unseen.filter (· ∉ (types.chase unseen held).1.map Prod.fst))
      (types.effective held) := by
  have hc : types.Contains outer (types.effective held) := ⟨held, ho, rfl⟩
  intro outer' held' name hr ho' hf ht
  refine List.mem_filter.2 ⟨h.inner hc outer' held' name hr ho' hf ht, ?_⟩
  simp only [decide_eq_true_eq]
  intro hm
  by_cases hend : ∃ target, types.EndsIn held target
  · obtain ⟨target, hend⟩ := hend
    obtain ⟨aliases, hl⟩ := endsIn_iff_leads.1 hend
    rw [h.chase_eq_resolve hn ho, (leads_iff.1 hl).2] at hm
    obtain ⟨rest, hrest, -⟩ := hl.suffix hm
    have he : types.effective held' = types.effective held := by
      rw [effective_of_endsIn hend]
      exact effective_of_follows (endsIn_iff_leads.2 ⟨rest, hrest⟩) hf
    exact (hg.inner hc).not_transGen (Relation.TransGen.tail' hr ⟨held', ho', he⟩)
  · -- A chain without an end stands for a typedef, and nothing is held by the name of one.
    obtain ⟨other, t, he, -, -, -⟩ := exists_cycle hend
    rw [he] at hr
    rcases Relation.ReflTransGen.cases_head hr with rfl | ⟨_, ⟨_, hu, _⟩, _⟩
    · cases ho'
    · cases hu

/-- How often aliases may be followed further on. -/
def followFor (types : Types) : Nat → List String → TypeRef → Option Attributes → List Site
  | 0 => fun _ _ _ => []
  | count + 1 => types.sitesFor count

theorem sitesFor_eq (count : Nat) (unseen : List String) :
    types.sitesFor count unseen = types.sitesWith unseen (types.followFor count) := by
  cases count <;> rfl

/-- What is held is listed alike, if what it stands for is. -/
theorem lists_held {outer held : TypeRef} {unseen : List String} {count : Nat}
    (hg : types.Grounded outer) (hn : unseen.Nodup) (hl : unseen.length ≤ count)
    (ha : types.Ahead unseen outer) (ho : outer.Holds held)
    (ih : ∀ {unseen count}, unseen.Nodup → unseen.length ≤ count →
      types.Ahead unseen (types.effective held) → ∀ attr,
      types.Lists (types.effective held) attr
        (types.sitesFor count unseen (types.effective held) attr))
    (attr : Option Attributes) :
    types.Lists (types.effective held) attr
      (types.innerSites unseen (types.followFor count) held attr) := by
  have hchase : (types.chase unseen held).2 = types.effective held :=
    congrArg Prod.snd (ha.chase_eq_resolve hn ho)
  have hentered := ha.entered hg hn ho
  rw [innerSites]
  rcases chase_cases types unseen held with hc | ⟨name, t, rfl, hd, hm⟩
  · have he : types.effective held = held := by
      rw [← hchase, hc]
    have hlists := ih hn hl (ha.inner ⟨held, ho, rfl⟩) attr
    rw [he, sitesFor_eq] at hlists
    rwa [hc, he]
  · cases count with
    | zero =>
      rw [List.length_eq_zero_iff.1 (Nat.le_zero.1 hl)] at hm
      simp at hm
    | succ count =>
      have hentry : (name, t) ∈ (types.chase unseen (.user name)).1 := by
        rw [chase_step hd hm]
        exact List.mem_cons_self
      have hlt := Nat.lt_of_lt_of_le (length_filter_lt_of_mem hentry hm) hl
      have hlists := ih (hn.filter _) (Nat.le_of_lt_succ hlt) hentered attr
      rw [← hchase, chase_step hd hm] at hlists ⊢
      exact hlists

theorem lists_sitesFor {ty : TypeRef} (hg : types.Grounded ty) {unseen : List String}
    {count : Nat} (hn : unseen.Nodup) (hl : unseen.length ≤ count) (ha : types.Ahead unseen ty)
    (attr : Option Attributes) : types.Lists ty attr (types.sitesFor count unseen ty attr) := by
  induction hg generalizing unseen count attr with
  | intro ty hacc ih =>
    have hheld : ∀ {held}, ty.Holds held → ∀ attr, types.Lists (types.effective held) attr
        (types.innerSites unseen (types.followFor count) held attr) := fun ho =>
      lists_held ⟨ty, hacc⟩ hn hl ha ho fun hn hl ha attr => ih _ ⟨_, ho, rfl⟩ hn hl ha attr
    rw [sitesFor_eq]
    cases ty with
    | builtin b => exact ⟨1, rfl⟩
    | user name => exact ⟨1, rfl⟩
    | array element elementAttr =>
      rw [sitesWith_array]
      exact (hheld .element elementAttr).array
    | dict value valueAttr key keyAttr =>
      rw [sitesWith_dict]
      cases key with
      | none =>
        rw [Option.elim_none, List.append_nil]
        exact (hheld .value valueAttr).values
      | some key => exact (hheld .value valueAttr).dict (hheld .key keyAttr)

/-- A listing that comes to an end has been inside all that stands inside a type. -/
theorem grounded_of_sites? {room : Nat} {ty : TypeRef} {attr : Option Attributes}
    {sites : List Site} (h : types.sites? room ty attr = some sites) : types.Grounded ty := by
  induction room generalizing ty attr sites with
  | zero => simp [sites?] at h
  | succ room ih =>
    refine ⟨_, ?_⟩
    rintro _ ⟨held, ho, rfl⟩
    cases ho with
    | element =>
      obtain ⟨inner, hi, -⟩ := Option.bind_eq_some_iff.1 h
      exact ih hi
    | @value value valueAttr keyAttr key =>
      cases key with
      | none =>
        obtain ⟨inner, hi, -⟩ := Option.bind_eq_some_iff.1 h
        exact ih hi
      | some key =>
        obtain ⟨inner, hi, -⟩ := Option.bind_eq_some_iff.1 h
        exact ih hi
    | key =>
      obtain ⟨inner, -, h⟩ := Option.bind_eq_some_iff.1 h
      obtain ⟨keys, hk, -⟩ := Option.bind_eq_some_iff.1 h
      exact ih hk

theorem lists_iff {ty : TypeRef} {attr : Option Attributes} {sites : List Site} :
    types.Lists ty attr sites ↔ types.Grounded ty ∧ sites = types.sites ty attr := by
  have hlists : types.Grounded ty → types.Lists ty attr (types.sites ty attr) := by
    intro hg
    have hl : types.names.length ≤ types.size :=
      Nat.le_of_eq (by rw [NameMap.names, List.length_map, NameMap.size])
    exact lists_sitesFor hg (NameMap.nodup_names types) hl (ahead_names ty) attr
  constructor
  · intro h
    obtain ⟨room, hs⟩ := id h
    have hg := grounded_of_sites? hs
    exact ⟨hg, h.unique (hlists hg)⟩
  · rintro ⟨hg, rfl⟩
    exact hlists hg

/-! ## The linter -/

/-- With some room the linter comes to an end, with these findings. -/
def Lints (types : Types) (findings : List Finding) : Prop :=
  ∃ room, types.lint? room = some findings

/-- Room for one listing after the other is room for all of them. -/
theorem exists_room {sites : List Site} (h : ∀ s ∈ sites, types.Grounded s.type) :
    ∃ room, ∀ s ∈ sites, (types.sites? room s.type s.attr).isSome = true := by
  induction sites with
  | nil => exact ⟨0, List.forall_mem_nil _⟩
  | cons s sites ih =>
    obtain ⟨hs, hsites⟩ := List.forall_mem_cons.1 h
    obtain ⟨m, hm⟩ := lists_iff.2 ⟨hs, rfl⟩
    obtain ⟨n, hn⟩ := ih hsites
    refine ⟨max m n, List.forall_mem_cons.2 ⟨?_, fun s hs => ?_⟩⟩
    · exact Option.isSome_iff_exists.2 ⟨_, sites?_mono (Nat.le_max_left m n) hm⟩
    · obtain ⟨found, hf⟩ := Option.isSome_iff_exists.1 (hn s hs)
      exact Option.isSome_iff_exists.2 ⟨_, sites?_mono (Nat.le_max_right m n) hf⟩

theorem lints_iff {findings : List Finding} :
    types.Lints findings ↔ ¬types.SelfContaining ∧ findings = types.lint := by
  constructor
  · rintro ⟨room, h⟩
    rw [lint?, Option.ite_none_right_eq_some] at h
    obtain ⟨hall, he⟩ := h
    refine ⟨?_, (Option.some.inj he).symm⟩
    rintro ⟨name, t, hd, hround⟩
    simp only [List.all_eq_true, Option.isSome_iff_exists] at hall
    obtain ⟨_, hs⟩ := hall (name, .typedef t) (NameMap.get?_eq_some_iff.1 hd) ⟨t.type, t.attr⟩
      List.mem_cons_self
    exact (grounded_of_sites? hs).not_transGen hround
  · rintro ⟨h, rfl⟩
    obtain ⟨room, hroom⟩ := types.exists_room fun s
      (_ : s ∈ types.entries.flatMap fun e => Lint.uses types e.2) =>
        grounded_of_not_selfContaining h s.type
    refine ⟨room, if_pos ?_⟩
    simp only [List.all_eq_true]
    exact fun e he s hs => hroom s (List.mem_flatMap.2 ⟨e, he, hs⟩)

end Types

end SchemaLang
