import SchemaLang.Lint

/-!
# All findings of a check

What has to hold of everything that a part of a check finds, by the forms of findings that it makes.
A statement on all findings of the linter is put together from these.

* `Lint.forall_use`: the findings about a type where it is used.
* `Lint.forall_items`, `Lint.forall_clashes`: items defined twice.
* `Lint.forall_struct`, `Lint.forall_enum`, `Lint.forall_typedef`, `Lint.forall_action`: the checks
  of definitions.
-/

namespace SchemaLang.Lint

variable {types : Types} {P : Finding → Prop} {key : String}

/-! ## The parts of a check -/

theorem forall_use {type : String} {member : Option String} {ty : TypeRef}
    {attr : Option Attributes}
    (h : ∀ site : Site, ∀ problem ∈ site.problems types, P { type, member, problem }) :
    ∀ f ∈ use types type member ty attr, P f := by
  intro f hf
  obtain ⟨site, -, hf⟩ := List.mem_flatMap.1 hf
  obtain ⟨problem, hp, rfl⟩ := List.mem_map.1 hf
  exact h site problem hp

theorem forall_consistency {d : Definition}
    (h : P { type := key, problem := .inconsistentName d.name }) :
    ∀ f ∈ consistency key d, P f := by
  intro f hf
  rw [consistency] at hf
  split at hf
  · exact absurd hf List.not_mem_nil
  · rwa [List.mem_singleton.1 hf]

theorem forall_items {α : Type} {kind : BaseKind} {name : α → String} {further : α → List Finding}
    {earlier : List String} {list : List α}
    (hr : ∀ item, P { type := key, member := some item, problem := .redefinition kind item })
    (hf : ∀ a, ∀ f ∈ further a, P f) : ∀ f ∈ items kind key name further earlier list, P f := by
  induction list generalizing earlier with
  | nil => exact fun f h => absurd h List.not_mem_nil
  | cons item rest ih =>
    intro f h
    rw [items, List.mem_append, List.mem_append] at h
    rcases h with (h | h) | h
    · split at h
      · rw [List.mem_singleton.1 h]
        exact hr (name item)
      · exact absurd h List.not_mem_nil
    · exact hf item f h
    · exact ih f h

theorem forall_invalidBases {kind : BaseKind} {isBase : String → Bool}
    {bases : Option (List String)}
    (h : ∀ base, P { type := key, problem := .invalidBase kind base }) :
    ∀ f ∈ invalidBases kind key isBase bases, P f := by
  intro f hf
  obtain ⟨base, -, rfl⟩ := List.mem_map.1 hf
  exact h base

theorem forall_circularBase {α : Type} {walk : Walk α}
    (h : P { type := key, problem := .circularBase }) : ∀ f ∈ circularBase key walk, P f := by
  intro f hf
  rw [circularBase] at hf
  split at hf
  · rwa [List.mem_singleton.1 hf]
  · exact absurd hf List.not_mem_nil

/-- A clash is reported of each struct that has the member. -/
theorem forall_clashes {members : List (String × String)}
    (h : ∀ m ∈ members, ∀ item,
      P { type := m.2, member := some item, problem := .redefinition .struct item }) :
    ∀ f ∈ clashes members, P f := by
  intro f hf
  obtain ⟨name, -, hf⟩ := List.mem_flatMap.1 hf
  simp only at hf
  split at hf
  · obtain ⟨owner, ho, rfl⟩ := List.mem_map.1 hf
    obtain ⟨m, hm, rfl⟩ := List.mem_map.1 ho
    exact h m (List.mem_filter.1 hm).1 name
  · exact absurd hf List.not_mem_nil

/-! ## Definitions -/

theorem forall_struct {s : Struct}
    (hb : ∀ base, P { type := key, problem := .invalidBase .struct base })
    (hr : ∀ item, P { type := key, member := some item, problem := .redefinition .struct item })
    (hc : P { type := key, problem := .circularBase })
    (hu : ∀ item (site : Site), ∀ problem ∈ site.problems types,
      P { type := s.name, member := some item, problem }) :
    ∀ f ∈ struct types key s, P f := by
  intro f h
  simp only [struct, List.mem_append] at h
  rcases h with (h | h) | h
  · exact forall_invalidBases hb f h
  · exact forall_items hr (fun m : Member => forall_use (hu m.name)) f h
  · exact forall_circularBase hc f h

theorem forall_enum {e : Enum} (hb : ∀ base, P { type := key, problem := .invalidBase .enum base })
    (hr : ∀ item, P { type := key, member := some item, problem := .redefinition .enum item })
    (hc : P { type := key, problem := .circularBase }) : ∀ f ∈ enum types key e, P f := by
  intro f h
  simp only [enum, List.mem_append] at h
  rcases h with (h | h) | h
  · exact forall_invalidBases hb f h
  · exact forall_items hr (fun _ f hf => absurd hf List.not_mem_nil) f h
  · exact forall_circularBase hc f h

theorem forall_typedef {t : Typedef} (hc : P { type := key, problem := .circularTypedef })
    (hu : ∀ site : Site, ∀ problem ∈ site.problems types, P { type := key, problem }) :
    ∀ f ∈ typedef types key t, P f := by
  intro f h
  simp only [typedef, List.mem_append] at h
  rcases h with h | h
  · split at h
    · rwa [List.mem_singleton.1 h]
    · exact absurd h List.not_mem_nil
  · exact forall_use hu f h

theorem forall_action {a : Action}
    (hu : ∀ site : Site, ∀ problem ∈ site.problems types, P { type := key, problem })
    (hc : ∀ type, ∀ m ∈ sectionMembers types type, ∀ item,
      P { type := m.2, member := some item, problem := .redefinition .struct item }) :
    ∀ f ∈ action types key a, P f := by
  intro f h
  rw [action, List.mem_append] at h
  rcases h with h | h
  · obtain ⟨type, -, h⟩ := List.mem_flatMap.1 h
    exact forall_use hu f h
  · refine forall_clashes (fun m hm => ?_) f h
    obtain ⟨type, -, hm⟩ := List.mem_flatMap.1 hm
    exact hc type m hm

end SchemaLang.Lint
