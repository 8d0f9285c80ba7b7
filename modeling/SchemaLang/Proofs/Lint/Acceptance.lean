import Mathlib.Data.List.Nodup
import Mathlib.Data.List.Pairwise
import SchemaLang.Proofs.Lint
import SchemaLang.Proofs.Lint.Inheritance
import SchemaLang.Proofs.Lint.Sites

/-!
# The linter accepts the well-formed models

The linter passes over what it cannot look into: bases of the wrong kind, what comes after a base
that is met again, sections that are no structs.  Whatever it passes over has been found fault with
elsewhere, so a model without findings has been looked through.

* `Types.wellFormed_of_lint`, `Types.lint_of_wellFormed`: no findings against well-formedness.
* `lint_eq_nil_iff_wellFormed`: both together.
-/

namespace SchemaLang

variable {types : Types}

/-! ## Structs and enums -/

namespace Lint

theorem items_of_nodup {α : Type} {kind : BaseKind} {key : String} {name : α → String}
    {further : α → List Finding} {earlier : List String} {list : List α}
    (hn : (list.map name).Nodup) (he : ∀ a ∈ list, name a ∉ earlier)
    (hf : ∀ a ∈ list, further a = []) : items kind key name further earlier list = [] := by
  induction list generalizing earlier with
  | nil => rfl
  | cons item rest ih =>
    obtain ⟨hnot, hn⟩ := List.nodup_cons.1 hn
    obtain ⟨hitem, he⟩ := List.forall_mem_cons.1 he
    obtain ⟨hfi, hf⟩ := List.forall_mem_cons.1 hf
    have hr : ∀ a ∈ rest, name a ∉ name item :: earlier := fun a ha =>
      List.not_mem_cons_of_ne_of_not_mem
        (fun h => hnot (h ▸ List.mem_map_of_mem (f := name) ha)) (he a ha)
    rw [items, if_neg hitem, hfi, ih hn hr hf]
    rfl

theorem items_eq_nil_iff {α : Type} {kind : BaseKind} {key : String} {name : α → String}
    {further : α → List Finding} {list : List α} :
    items kind key name further [] list = []
      ↔ (list.map name).Nodup ∧ ∀ a ∈ list, further a = [] := by
  constructor
  · intro h
    obtain ⟨hn, -, hf⟩ := nodup_of_items h
    exact ⟨hn, hf⟩
  · rintro ⟨hn, hf⟩
    exact items_of_nodup hn (by simp) hf

theorem circularBase_eq_nil_iff {α : Type} {key : String} {walk : Walk α} :
    circularBase key walk = [] ↔ walk.repeats = false := by
  rw [circularBase]
  cases walk.repeats <;> simp

theorem invalidBases_eq_nil_iff {kind : BaseKind} {key : String} {isBase : String → Bool}
    {bases : Option (List String)} :
    invalidBases kind key isBase bases = [] ↔ ∀ base ∈ bases.getD [], isBase base = true := by
  simp [invalidBases, List.filter_eq_nil_iff]

theorem isStructBase_iff {s : Struct} {base : String} :
    isStructBase types s base = true ↔ ∃ b, types.Denotes base (.struct b) ∧ b.union = s.union := by
  simp only [← Types.structBase?_eq_some_iff, isStructBase]
  cases Struct.heritage.base? types base <;> simp

theorem isEnumBase_iff {base : String} :
    isEnumBase types base = true ↔ ∃ b, types.Denotes base (.enum b) := by
  simp only [← Types.enumBase?_eq_some_iff, isEnumBase, Option.isSome_iff_exists]

theorem struct_eq_nil_iff {key : String} {s : Struct} :
    struct types key s = []
      ↔ (∀ base ∈ s.bases.getD [], ∃ b, types.Denotes base (.struct b) ∧ b.union = s.union)
        ∧ Struct.heritage.Regular types Member.name s
        ∧ ∀ m ∈ types.members s, use types s.name (some m.name) m.type m.attr = [] := by
  simp only [struct, List.append_eq_nil_iff, invalidBases_eq_nil_iff, isStructBase_iff,
    items_eq_nil_iff, circularBase_eq_nil_iff, Types.regular_iff Heritage.named_struct]
  constructor
  · rintro ⟨⟨hb, hn, hu⟩, hr⟩
    exact ⟨hb, ⟨hr, hn⟩, hu⟩
  · rintro ⟨hb, ⟨hr, hn⟩, hu⟩
    exact ⟨⟨hb, hn, hu⟩, hr⟩

theorem enum_eq_nil_iff {key : String} {e : Enum} :
    enum types key e = []
      ↔ (∀ base ∈ e.bases.getD [], ∃ b, types.Denotes base (.enum b))
        ∧ Enum.heritage.Regular types EnumValue.name e := by
  simp only [enum, List.append_eq_nil_iff, invalidBases_eq_nil_iff, isEnumBase_iff,
    items_eq_nil_iff, circularBase_eq_nil_iff, Types.regular_iff Heritage.named_enum]
  constructor
  · rintro ⟨⟨hb, hn, -⟩, hr⟩
    exact ⟨hb, hr, hn⟩
  · rintro ⟨hb, hr, hn⟩
    exact ⟨⟨hb, hn, by simp⟩, hr⟩

/-! ## Typedefs and actions -/

theorem typedef_eq_nil_iff {key : String} {t : Typedef} :
    typedef types key t = []
      ↔ (∃ aliases target, types.Leads t.type aliases target)
        ∧ use types key none t.type t.attr = [] := by
  have hc : types.isCircular t.type = false ↔ ∃ aliases target, types.Leads t.type aliases target :=
    ⟨fun h => ⟨_, _, Types.leads_iff.2 ⟨h, rfl⟩⟩, fun ⟨_, _, h⟩ => (Types.leads_iff.1 h).1⟩
  rw [typedef, List.append_eq_nil_iff, ← hc]
  cases types.isCircular t.type <;> simp

theorem clashes_eq_nil_iff {members : List (String × String)} :
    clashes members = [] ↔ (members.map Prod.fst).Nodup := by
  have hcount : ∀ name, ((members.filter fun m => m.1 == name).map Prod.snd).length
      = (members.map Prod.fst).count name := by
    intro name
    rw [List.length_map, List.count_eq_countP, List.countP_map, List.countP_eq_length_filter]
    rfl
  rw [clashes, List.flatMap_eq_nil_iff, List.nodup_iff_count_le_one]
  constructor
  · intro h name
    by_cases hm : name ∈ members.map Prod.fst
    · have hn := h name (List.mem_eraseDups.2 hm)
      simp only at hn
      split at hn
      · next hl =>
        rw [List.map_eq_nil_iff] at hn
        rw [hn] at hl
        simp at hl
      · next hl =>
        rw [hcount] at hl
        omega
    · rw [List.count_eq_zero_of_not_mem hm]
      exact Nat.zero_le 1
  · intro h name _
    have hl : ¬1 < ((members.filter fun m => m.1 == name).map Prod.snd).length := by
      rw [hcount]
      exact Nat.not_lt.2 (h name)
    exact if_neg hl

/-- The struct of a section gives its members, as long as walks meet no base again. -/
theorem mem_sectionMembers_iff
    (hr : ∀ key s, types.get? key = some (.struct s) →
      Struct.heritage.Regular types Member.name s) {type name : String} :
    name ∈ (sectionMembers types type).map Prod.fst
      ↔ ∃ s m, types.Denotes type (.struct s) ∧ Struct.heritage.HasItem types s m
        ∧ m.name = name := by
  rw [sectionMembers]
  cases hb : Struct.heritage.base? types type with
  | none =>
    have hn : ∀ s, ¬types.Denotes type (.struct s) := fun s hd => by
      rw [Types.structBase?_eq_some_iff.2 hd] at hb
      simp at hb
    simp [hn]
  | some s =>
    have hd := Types.structBase?_eq_some_iff.1 hb
    obtain ⟨target, ht⟩ := hd.exists_get?
    have hw := ((Types.regular_iff Heritage.named_struct).1 (hr target s ht)).1
    have hu : ∀ s', types.Denotes type (.struct s') → s' = s := fun s' hd' => by
      rw [Types.structBase?_eq_some_iff.2 hd'] at hb
      exact Option.some.inj hb
    simp only [hw, Bool.false_eq_true, if_false, List.map_map, List.mem_map, Function.comp_apply,
      Types.mem_walk_iff hw]
    constructor
    · rintro ⟨m, hm, rfl⟩
      exact ⟨s, m, hd, hm, rfl⟩
    · rintro ⟨s', m, hd', hm, rfl⟩
      rw [hu s' hd'] at hm
      exact ⟨m, hm, rfl⟩

theorem nodup_sectionMembers
    (hr : ∀ key s, types.get? key = some (.struct s) →
      Struct.heritage.Regular types Member.name s) (type : String) :
    ((sectionMembers types type).map Prod.fst).Nodup := by
  rw [sectionMembers]
  cases hb : Struct.heritage.base? types type with
  | none => exact List.nodup_nil
  | some s =>
    obtain ⟨target, ht⟩ := (Types.structBase?_eq_some_iff.1 hb).exists_get?
    obtain ⟨hw, hn⟩ := (Types.regular_iff Heritage.named_struct).1 (hr target s ht)
    simp only [hw, Bool.false_eq_true, if_false, List.map_map]
    exact hn

theorem clashes_sections_iff
    (hr : ∀ key s, types.get? key = some (.struct s) →
      Struct.heritage.Regular types Member.name s) {a : Action} :
    clashes ((Section.inputs.filterMap a.type?).flatMap (sectionMembers types)) = []
      ↔ a.Apart types := by
  rw [clashes_eq_nil_iff, List.map_flatMap, List.nodup_flatMap, List.pairwise_filterMap]
  constructor
  · rintro ⟨-, hp⟩ x hx y hy hxy t s m ht hd hm t' s' m' ht' hd' hm' he
    have : Std.Symm fun x y => ∀ t, a.type? x = some t → ∀ t', a.type? y = some t' →
        (Function.onFun List.Disjoint fun t => (sectionMembers types t).map Prod.fst) t t' :=
      ⟨fun _ _ h t ht t' ht' _ hn hn' => h t' ht' t ht hn' hn⟩
    have hdis := hp.forall hx hy hxy t ht t' ht'
    refine hdis (a := m.name) ?_ ?_
    · exact (mem_sectionMembers_iff hr).2 ⟨s, m, hd, hm, rfl⟩
    · exact (mem_sectionMembers_iff hr).2 ⟨s', m', hd', hm', he.symm⟩
  · intro h
    refine ⟨fun t _ => nodup_sectionMembers hr t, ?_⟩
    refine List.Nodup.pairwise_of_forall_ne (by decide) fun x hx y hy hxy t ht t' ht' => ?_
    intro name hn hn'
    obtain ⟨s, m, hd, hm, rfl⟩ := (mem_sectionMembers_iff hr).1 hn
    obtain ⟨s', m', hd', hm', he⟩ := (mem_sectionMembers_iff hr).1 hn'
    exact h x hx y hy hxy t s m ht hd hm t' s' m' ht' hd' hm' he.symm

end Lint

/-! ## Type models -/

theorem Site.wellFormed_user_iff {name : String} :
    Site.WellFormed types ⟨.user name, none⟩ ↔ types.IsType name := by
  constructor
  · intro h
    exact (h _ .whole).isType rfl
  · intro h p hp
    cases hp
    refine ⟨?_, by simp, by simp⟩
    rintro _ ⟨⟩
    exact h

namespace Types

theorem consistency_eq_nil_iff {key : String} {d : Definition} :
    Lint.consistency key d = [] ↔ d.name = key := by
  rw [Lint.consistency]
  by_cases h : key = d.name
  · simp [← h]
  · simp [h, Ne.symm h]

theorem aliasesEnd_of_lint (h : types.lint = []) : types.AliasesEnd := by
  intro name t hd
  have hl := definition_of_lint h hd
  simp only [Lint.definition, List.append_eq_nil_iff, Lint.typedef_eq_nil_iff] at hl
  exact hl.2.1

theorem regular_of_lint (h : types.lint = []) :
    ∀ key s, types.get? key = some (.struct s) →
      Struct.heritage.Regular types Member.name s := by
  intro key s hd
  have hl := definition_of_lint h hd
  simp only [Lint.definition, List.append_eq_nil_iff, Lint.struct_eq_nil_iff] at hl
  exact hl.2.2.1

theorem wellFormed_of_lint (h : types.lint = []) : types.WellFormed where
  name hd := by
    have hl := definition_of_lint h hd
    rw [Lint.definition.eq_def, List.append_eq_nil_iff, consistency_eq_nil_iff] at hl
    exact hl.1
  structBase hd hb := by
    have hl := definition_of_lint h hd
    simp only [Lint.definition, List.append_eq_nil_iff, Lint.struct_eq_nil_iff] at hl
    exact hl.2.1 _ hb
  enumBase hd hb := by
    have hl := definition_of_lint h hd
    simp only [Lint.definition, List.append_eq_nil_iff, Lint.enum_eq_nil_iff] at hl
    exact hl.2.1 _ hb
  struct hd := regular_of_lint h _ _ hd
  enum hd := by
    have hl := definition_of_lint h hd
    simp only [Lint.definition, List.append_eq_nil_iff, Lint.enum_eq_nil_iff] at hl
    exact hl.2.2
  apart hd := by
    have hl := definition_of_lint h hd
    simp only [Lint.definition, Lint.action, List.append_eq_nil_iff] at hl
    exact (Lint.clashes_sections_iff (regular_of_lint h)).1 hl.2.2
  aliasEnds hd := aliasesEnd_of_lint h _ _ hd
  sectionType {key type a x} hd ht := by
    have hl := definition_of_lint h hd
    simp only [Lint.definition, Lint.action, List.append_eq_nil_iff, List.flatMap_eq_nil_iff] at hl
    have hu := hl.2.1 type (List.mem_filterMap.2 ⟨x, x.mem_all, ht⟩)
    exact Site.wellFormed_user_iff.1 (Site.wellFormed_of_use (aliasesEnd_of_lint h) hu)
  memberSite hd hm := by
    have hl := definition_of_lint h hd
    simp only [Lint.definition, List.append_eq_nil_iff, Lint.struct_eq_nil_iff] at hl
    have hw := ((regular_iff Heritage.named_struct).1 hl.2.2.1).1
    have hmem := (mem_walk_iff hw).2 (Heritage.HasItem.own (h := Struct.heritage) hm)
    exact Site.wellFormed_of_use (aliasesEnd_of_lint h) (hl.2.2.2 _ hmem)
  typedefSite hd := by
    have hl := definition_of_lint h hd
    simp only [Lint.definition, List.append_eq_nil_iff, Lint.typedef_eq_nil_iff] at hl
    exact Site.wellFormed_of_use (aliasesEnd_of_lint h) hl.2.2

namespace WellFormed

/-- Inherited members are members of some definition. -/
theorem site_of_hasItem (h : types.WellFormed) {s : Struct} {m : Member}
    (hm : Struct.heritage.HasItem types s m) {key : String}
    (hd : types.get? key = some (.struct s)) : Site.WellFormed types ⟨m.type, m.attr⟩ := by
  induction hm generalizing key with
  | own hm => exact h.memberSite hd hm
  | inherited _ hb _ ih =>
    obtain ⟨target, ht⟩ := (structBase?_eq_some_iff.1 hb).exists_get?
    exact ih ht

theorem aliasesEnd (h : types.WellFormed) : types.AliasesEnd := fun _ _ => h.aliasEnds

theorem typedefsFormed (h : types.WellFormed) : types.TypedefsFormed := fun _ _ => h.typedefSite

end WellFormed

theorem lint_of_wellFormed (h : types.WellFormed) : types.lint = [] := by
  have hu : ∀ {type member ty attr}, Site.WellFormed types ⟨ty, attr⟩ →
      Lint.use types type member ty attr = [] :=
    Site.use_of_wellFormed h.aliasesEnd h.typedefsFormed
  rw [lint, List.flatMap_eq_nil_iff]
  rintro ⟨key, d⟩ he
  have hd := NameMap.get?_eq_some_iff.2 he
  rw [Lint.definition.eq_def, List.append_eq_nil_iff, consistency_eq_nil_iff]
  refine ⟨h.name hd, ?_⟩
  cases d with
  | struct s =>
    refine Lint.struct_eq_nil_iff.2 ⟨fun base => h.structBase hd, h.struct hd, fun m hm => ?_⟩
    exact hu (h.site_of_hasItem (hasItem_of_mem_walk hm) hd)
  | enum e => exact Lint.enum_eq_nil_iff.2 ⟨fun base => h.enumBase hd, h.enum hd⟩
  | typedef t => exact Lint.typedef_eq_nil_iff.2 ⟨h.aliasEnds hd, hu (h.typedefSite hd)⟩
  | action a =>
    show Lint.action types key a = []
    rw [Lint.action, List.append_eq_nil_iff, List.flatMap_eq_nil_iff,
      Lint.clashes_sections_iff fun _ _ => h.struct]
    refine ⟨fun type ht => ?_, h.apart hd⟩
    obtain ⟨x, -, hx⟩ := List.mem_filterMap.1 ht
    exact hu (Site.wellFormed_user_iff.2 (h.sectionType hd hx))

end Types

/-- The linter finds nothing exactly in the well-formed models. -/
theorem lint_eq_nil_iff_wellFormed (types : Types) : types.lint = [] ↔ types.WellFormed :=
  ⟨Types.wellFormed_of_lint, Types.lint_of_wellFormed⟩

end SchemaLang
