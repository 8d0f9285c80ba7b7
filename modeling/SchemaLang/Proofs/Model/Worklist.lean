import Mathlib.Data.Prod.Lex
import Mathlib.Data.List.Basic
import SchemaLang.Proofs.Model.Reach

/-!
# Searching with a list of pending names

A search takes one pending name after the other, in any order.  It passes over a name that it has
found already or that is not defined, and else it has found it, and what its definition refers to
is pending.  Names become pending again and again, since nothing keeps them out but having been
found.

All that has been found or is pending can be reached, and what a found definition refers to is
found, pending, or not defined.  With nothing pending this leaves one map that the search can have
found.

* `Types.wellFounded_step`: no search goes on for ever.
* `Search.Sound.step`, `Search.Sound.run`: what a step and a run keep.
* `Types.searches_iff`: every search that ends has found what `Types.restrict` keeps.
-/

namespace SchemaLang

/-- A name stands somewhere in a type. -/
inductive TypeRef.RefersTo : TypeRef → String → Prop
  | user (name : String) : RefersTo (.user name) name
  | element {element : TypeRef} {attr : Option Attributes} {name : String}
      (h : RefersTo element name) : RefersTo (.array element attr) name
  | value {value : TypeRef} {attr keyAttr : Option Attributes} {key : Option TypeRef}
      {name : String} (h : RefersTo value name) : RefersTo (.dict value attr key keyAttr) name
  | key {value key : TypeRef} {attr keyAttr : Option Attributes} {name : String}
      (h : RefersTo key name) : RefersTo (.dict value attr (some key) keyAttr) name

/-- A definition refers to a name. -/
inductive Definition.RefersTo : Definition → String → Prop
  | base {s : Struct} {name : String} (h : name ∈ s.bases.getD []) : RefersTo (.struct s) name
  | member {s : Struct} {m : Member} {name : String} (hm : m ∈ s.members.getD [])
      (h : m.type.RefersTo name) : RefersTo (.struct s) name
  | enumBase {e : Enum} {name : String} (h : name ∈ e.bases.getD []) : RefersTo (.enum e) name
  | target {t : Typedef} {name : String} (h : t.type.RefersTo name) : RefersTo (.typedef t) name
  | sectionType {a : Action} {x : Section} {name : String} (h : a.type? x = some name) :
      RefersTo (.action a) name

/-- The names that can be reached from a name, over definitions. -/
inductive Types.Reachable (types : Types) (start : String) : String → Prop
  | start : Reachable types start start
  | step {name other : String} {d : Definition} (h : Reachable types start name)
      (hd : types.get? name = some d) (hu : d.RefersTo other) : Reachable types start other

/-- What a search has found so far, and what it has yet to look at. -/
structure Search where
  found : Types
  pending : List String

/-- A search takes one of the pending names. -/
inductive Types.Step (types : Types) : Search → Search → Prop
  | found {found : Types} {name : String} {before after : List String}
      (h : found.contains name = true) :
      Step types ⟨found, before ++ name :: after⟩ ⟨found, before ++ after⟩
  | undefined {found : Types} {name : String} {before after : List String}
      (h : types.get? name = none) :
      Step types ⟨found, before ++ name :: after⟩ ⟨found, before ++ after⟩
  | enter {found : Types} {name : String} {d : Definition} {before after : List String}
      (h : found.contains name = false) (hd : types.get? name = some d) :
      Step types ⟨found, before ++ name :: after⟩
        ⟨found.insert name d, before ++ d.mentioned ++ after⟩

/-- Steps of a search, one after the other. -/
abbrev Types.Searches (types : Types) : Search → Search → Prop := Relation.ReflTransGen types.Step

def Search.init (start : String) : Search := ⟨.empty, [start]⟩

/-! ## Names that are referred to -/

theorem TypeRef.mem_mentioned_iff {ty : TypeRef} {name : String} :
    name ∈ ty.mentioned ↔ ty.RefersTo name := by
  constructor
  · intro h
    induction ty using TypeRef.mentioned.induct with
    | case1 b => simp [mentioned] at h
    | case2 other =>
      rw [mentioned, List.mem_singleton] at h
      rw [h]
      exact .user other
    | case3 element attr ih => exact .element (ih h)
    | case4 value attr keyAttr ih => exact .value (ih h)
    | case5 value attr key keyAttr ihv ihk =>
      rcases List.mem_append.1 h with h | h
      · exact .value (ihv h)
      · exact .key (ihk h)
  · intro h
    induction h with
    | user name => exact List.mem_singleton.2 rfl
    | element _ ih => exact ih
    | @value value attr keyAttr key name _ ih =>
      cases key with
      | none => exact ih
      | some key => exact List.mem_append_left _ ih
    | key _ ih => exact List.mem_append_right _ ih

theorem Definition.mem_mentioned_iff {d : Definition} {name : String} :
    name ∈ d.mentioned ↔ d.RefersTo name := by
  constructor
  · intro h
    cases d with
    | struct s =>
      rcases List.mem_append.1 h with h | h
      · exact .base h
      · obtain ⟨m, hm, h⟩ := List.mem_flatMap.1 h
        exact .member hm (TypeRef.mem_mentioned_iff.1 h)
    | enum e => exact .enumBase h
    | typedef t => exact .target (TypeRef.mem_mentioned_iff.1 h)
    | action a =>
      obtain ⟨x, -, h⟩ := List.mem_filterMap.1 h
      exact .sectionType h
  · intro h
    cases h with
    | base h => exact List.mem_append_left _ h
    | member hm h =>
      exact List.mem_append_right _ (List.mem_flatMap.2 ⟨_, hm, TypeRef.mem_mentioned_iff.2 h⟩)
    | enumBase h => exact h
    | target h => exact TypeRef.mem_mentioned_iff.2 h
    | @sectionType a x name h =>
      exact List.mem_filterMap.2 ⟨x, x.mem_all, h⟩

namespace Types

variable {types : Types}

theorem reachable_iff_needs {start name : String} :
    types.Reachable start name ↔ types.Needs start name := by
  constructor
  · intro h
    induction h with
    | start => exact .refl
    | step _ hd hu ih => exact .tail ih ⟨_, hd, Definition.mem_mentioned_iff.2 hu⟩
  · intro h
    induction h with
    | refl => exact .start
    | tail _ hm ih =>
      obtain ⟨d, hd, hm⟩ := hm
      exact .step ih hd (Definition.mem_mentioned_iff.1 hm)

/-- A restricted model has the definitions that can be reached, as they were. -/
theorem get?_restrict_eq_some_iff {start name : String} {d : Definition} :
    (types.restrict start).get? name = some d
      ↔ types.get? name = some d ∧ types.Reachable start name := by
  rw [reachable_iff_needs]
  constructor
  · intro h
    rw [restrict, NameMap.get?_filter] at h
    split at h
    · next hr =>
      exact ⟨h, (mem_reachable_iff.1 (List.contains_iff_mem.1 hr)).1⟩
    · simp at h
  · rintro ⟨hd, hn⟩
    rw [get?_restrict_of_needs hn, hd]

/-! ## The end of a search -/

/-- The names of the model that have not been found. -/
def unfound (types found : Types) : List String :=
  types.names.filter fun name => !found.contains name

theorem length_unfound_insert_lt {found : Types} {name : String} {d : Definition}
    (h : found.contains name = false) (hd : types.get? name = some d) :
    (types.unfound (found.insert name d)).length < (types.unfound found).length := by
  have hmem : name ∈ types.unfound found :=
    List.mem_filter.2 ⟨NameMap.mem_names_of_get? hd, by rw [h]; rfl⟩
  have he : types.unfound (found.insert name d) = (types.unfound found).filter (name ≠ ·) := by
    rw [unfound, unfound, List.filter_filter]
    refine List.filter_congr ?_
    intro other _
    rw [Bool.eq_iff_iff, Bool.not_eq_true', ← Bool.not_eq_true, NameMap.contains_insert]
    simp
  rw [he, List.length_filter_lt_length_iff_exists]
  exact ⟨name, hmem, by simp⟩

/-- How many names there are still to be found, and then how many are pending. -/
def remaining (types : Types) (s : Search) : Nat ×ₗ Nat :=
  toLex ((types.unfound s.found).length, s.pending.length)

/-- Each step finds a name or leaves fewer names pending. -/
theorem wellFounded_step (types : Types) :
    WellFounded fun after before => types.Step before after := by
  refine Subrelation.wf ?_ (InvImage.wf types.remaining wellFounded_lt)
  intro after before h
  show types.remaining after < types.remaining before
  rw [remaining, remaining, Prod.Lex.toLex_lt_toLex]
  cases h with
  | found h => exact .inr ⟨rfl, by simp⟩
  | undefined h => exact .inr ⟨rfl, by simp⟩
  | enter h hd => exact .inl (length_unfound_insert_lt h hd)

theorem exists_step_iff {s : Search} : (∃ next, types.Step s next) ↔ s.pending ≠ [] := by
  obtain ⟨found, pending⟩ := s
  constructor
  · rintro ⟨next, h⟩
    cases h <;> simp
  · intro h
    obtain ⟨name, rest, rfl⟩ := List.exists_cons_of_ne_nil h
    cases hf : found.contains name with
    | true => exact ⟨_, @Step.found types found name [] rest hf⟩
    | false =>
      cases hd : types.get? name with
      | none => exact ⟨_, @Step.undefined types found name [] rest hd⟩
      | some d => exact ⟨_, @Step.enter types found name d [] rest hf hd⟩

/-- Every search can be brought to its end. -/
theorem exists_searches (types : Types) (s : Search) :
    ∃ found, types.Searches s ⟨found, []⟩ := by
  induction s using (wellFounded_step types).induction with
  | _ s ih =>
    by_cases h : s.pending = []
    · exact ⟨s.found, h ▸ .refl⟩
    · obtain ⟨next, hs⟩ := exists_step_iff.2 h
      obtain ⟨found, hr⟩ := ih next hs
      exact ⟨found, .head hs hr⟩

end Types

/-! ## What a search keeps -/

namespace Search

/-- A name has been dealt with, or will be. -/
def Covers (types : Types) (s : Search) (name : String) : Prop :=
  name ∈ s.pending ∨ s.found.contains name = true ∨ types.get? name = none

/-- What has been found and what is pending can be reached, and nothing has been forgotten. -/
structure Sound (types : Types) (start : String) (s : Search) : Prop where
  found : ∀ name d, s.found.get? name = some d →
    types.get? name = some d ∧ types.Reachable start name
  pending : ∀ name ∈ s.pending, types.Reachable start name
  start : s.Covers types start
  closed : ∀ name d, s.found.get? name = some d → ∀ other, d.RefersTo other → s.Covers types other

variable {types : Types} {start : String}

theorem sound_init : (init start).Sound types start where
  found name d h := by simp [init] at h
  pending name h := by
    rw [List.mem_singleton.1 h]
    exact .start
  start := .inl List.mem_cons_self
  closed name d h := by simp [init] at h

/-- A name that is taken has been found or is not defined. -/
theorem Covers.pass {found : Types} {name other : String} {before after : List String}
    (h : Covers types ⟨found, before ++ name :: after⟩ other)
    (hn : found.contains name = true ∨ types.get? name = none) :
    Covers types ⟨found, before ++ after⟩ other := by
  rcases h with h | h
  · rw [List.append_cons, List.mem_append, List.mem_append, List.mem_singleton] at h
    rcases h with (h | rfl) | h
    · exact .inl (List.mem_append_left _ h)
    · exact .inr hn
    · exact .inl (List.mem_append_right _ h)
  · exact .inr h

theorem Covers.enter {found : Types} {name other : String} {d : Definition}
    {before after : List String} (h : Covers types ⟨found, before ++ name :: after⟩ other) :
    Covers types ⟨found.insert name d, before ++ d.mentioned ++ after⟩ other := by
  rcases h with h | h | h
  · rw [List.append_cons, List.mem_append, List.mem_append, List.mem_singleton] at h
    rcases h with (h | rfl) | h
    · exact .inl (List.mem_append_left _ (List.mem_append_left _ h))
    · exact .inr (.inl (NameMap.contains_insert.2 (.inl rfl)))
    · exact .inl (List.mem_append_right _ h)
  · exact .inr (.inl (NameMap.contains_insert.2 (.inr h)))
  · exact .inr (.inr h)

theorem Sound.pass {found : Types} {name : String} {before after : List String}
    (h : Sound types start ⟨found, before ++ name :: after⟩)
    (hn : found.contains name = true ∨ types.get? name = none) :
    Sound types start ⟨found, before ++ after⟩ where
  found := h.found
  pending other ho := by
    refine h.pending other ?_
    exact (List.sublist_cons_self name after).append_left before |>.subset ho
  start := h.start.pass hn
  closed other d hd target hu := (h.closed other d hd target hu).pass hn

theorem Sound.enter {found : Types} {name : String} {d : Definition} {before after : List String}
    (h : Sound types start ⟨found, before ++ name :: after⟩) (hd : types.get? name = some d) :
    Sound types start ⟨found.insert name d, before ++ d.mentioned ++ after⟩ := by
  have hname : types.Reachable start name :=
    h.pending name (List.mem_append_right _ List.mem_cons_self)
  have hfound : ∀ other d', (found.insert name d).get? other = some d' →
      other = name ∧ d' = d ∨ found.get? other = some d' := by
    intro other d' ho
    rw [NameMap.get?_insert] at ho
    split at ho
    · next he => exact .inl ⟨he.symm, (Option.some.inj ho).symm⟩
    · exact .inr ho
  refine ⟨?_, ?_, h.start.enter, ?_⟩
  · intro other d' ho
    rcases hfound other d' ho with ⟨rfl, rfl⟩ | ho
    · exact ⟨hd, hname⟩
    · exact h.found other d' ho
  · intro other ho
    rw [List.mem_append, List.mem_append] at ho
    rcases ho with (ho | ho) | ho
    · exact h.pending other (List.mem_append_left _ ho)
    · exact .step hname hd (Definition.mem_mentioned_iff.1 ho)
    · exact h.pending other (List.mem_append_right _ (List.mem_cons_of_mem _ ho))
  · intro other d' ho target hu
    rcases hfound other d' ho with ⟨rfl, rfl⟩ | ho
    · have hm := Definition.mem_mentioned_iff.2 hu
      exact .inl (List.mem_append_left _ (List.mem_append_right _ hm))
    · exact (h.closed other d' ho target hu).enter

theorem Sound.step {s next : Search} (h : s.Sound types start) (hs : types.Step s next) :
    next.Sound types start := by
  cases hs with
  | found hf => exact h.pass (.inl hf)
  | undefined hd => exact h.pass (.inr hd)
  | enter _ hd => exact h.enter hd

theorem Sound.run {s last : Search} (h : s.Sound types start) (hr : types.Searches s last) :
    last.Sound types start := by
  induction hr with
  | refl => exact h
  | tail _ hs ih => exact ih.step hs

/-- With nothing pending, all that can be reached has been found. -/
theorem Sound.get?_eq_some_iff {found : Types} (h : Sound types start ⟨found, []⟩) {name : String}
    {d : Definition} :
    found.get? name = some d ↔ types.get? name = some d ∧ types.Reachable start name := by
  have hcovered : ∀ other, types.Reachable start other →
      found.contains other = true ∨ types.get? other = none := by
    intro other ho
    induction ho with
    | start => exact h.start.resolve_left (by simp)
    | @step name' other d' _ hd hu ih =>
      have hc := ih.resolve_right (by simp [hd])
      obtain ⟨d'', hf⟩ := Option.isSome_iff_exists.1 hc
      cases hd.symm.trans (h.found _ _ hf).1
      exact (h.closed _ _ hf _ hu).resolve_left (by simp)
  refine ⟨h.found name d, ?_⟩
  rintro ⟨hd, hr⟩
  have hc := (hcovered name hr).resolve_right (by simp [hd])
  obtain ⟨d', hf⟩ := Option.isSome_iff_exists.1 hc
  cases hd.symm.trans (h.found _ _ hf).1
  exact hf

end Search

namespace Types

variable {types : Types}

theorem eq_restrict_of_searches {start : String} {found : Types}
    (h : types.Searches (.init start) ⟨found, []⟩) : found = types.restrict start := by
  apply NameMap.ext_get?
  intro name
  apply Option.ext
  intro d
  rw [(Search.sound_init.run h).get?_eq_some_iff, get?_restrict_eq_some_iff]

theorem searches_iff {start : String} {found : Types} :
    types.Searches (.init start) ⟨found, []⟩ ↔ found = types.restrict start := by
  refine ⟨eq_restrict_of_searches, ?_⟩
  rintro rfl
  obtain ⟨found, h⟩ := exists_searches types (.init start)
  rwa [← eq_restrict_of_searches h]

end Types

end SchemaLang
