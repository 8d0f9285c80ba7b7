import Mathlib.Data.List.Nodup
import Mathlib.Logic.Relation
import SchemaLang.Model.Reach

/-!
# What a definition needs

`Types.Needs` goes from name to name along what definitions mention, and says nothing of whether
there is a definition at its end.  The search keeps a record of the names it may still enter, which
are all defined names at its start, and enters each that is needed.

* `Types.mem_reachable_iff`: the search finds every defined name that is needed, and no other.
* `Types.get?_restrict_of_needs`: a restricted model has the definitions that are needed.
-/

namespace SchemaLang

theorem NameMap.mem_names_iff {α : Type} {m : NameMap α} {name : String} :
    name ∈ m.names ↔ ∃ a, m.get? name = some a := by
  refine ⟨fun h => ?_, fun ⟨_, h⟩ => mem_names_of_get? h⟩
  obtain ⟨e, he, rfl⟩ := List.mem_map.1 h
  exact ⟨e.2, get?_eq_some_iff.2 he⟩

theorem NameMap.nodup_names {α : Type} (m : NameMap α) : m.names.Nodup := by
  refine List.pairwise_map.2 (m.sorted.imp fun {a b} hlt he => ?_)
  rw [he] at hlt
  exact String.lt_irrefl _ hlt

/-- Of the names that a search can come to, the one record has those that it may still enter and the
other one those that it has entered. -/
structure OppositeRecords (names unseen seen : List String) : Prop where
  nodup : unseen.Nodup
  mem_iff : ∀ name ∈ names, name ∈ unseen ↔ name ∉ seen

theorem OppositeRecords.start {names : List String} (h : names.Nodup) :
    OppositeRecords names names [] where
  nodup := h
  mem_iff name hm := by simpa using hm

theorem OppositeRecords.enter {names unseen seen : List String}
    (h : OppositeRecords names unseen seen) (name : String) :
    OppositeRecords names (unseen.erase name) (name :: seen) where
  nodup := h.nodup.erase name
  mem_iff other ho := by
    rw [h.nodup.mem_erase_iff, h.mem_iff other ho, List.mem_cons, not_or]

theorem OppositeRecords.mem_seen {names unseen seen : List String}
    (h : OppositeRecords names unseen seen) {name : String} (hn : name ∈ names)
    (hm : name ∉ unseen) : name ∈ seen := by
  by_contra hnot
  exact hm ((h.mem_iff name hn).2 hnot)

namespace Types

/-- The definition of a name mentions another one. -/
def Mentions (types : Types) (name other : String) : Prop :=
  ∃ d, types.get? name = some d ∧ other ∈ d.mentioned

/-- The names that a name cannot do without, itself among them. -/
def Needs (types : Types) : String → String → Prop := Relation.ReflTransGen types.Mentions

variable {types : Types}

theorem mem_mentioned_iff {name other : String} :
    other ∈ (types.get? name).elim [] Definition.mentioned ↔ types.Mentions name other := by
  rw [Mentions]
  cases types.get? name <;> simp

/-- A list of names that is closed under mention has all that a name of it needs. -/
theorem Needs.mem {start name : String} {names : List String} (h : types.Needs start name)
    (hs : start ∈ names)
    (hc : ∀ n ∈ names, ∀ other ∈ (types.get? n).elim [] Definition.mentioned, other ∈ names) :
    name ∈ names := by
  induction h with
  | refl => exact hs
  | tail _ hm ih => exact hc _ ih _ (mem_mentioned_iff.2 hm)

/-! ## Steps of the search -/

theorem explore_nil (unseen : List String) : types.explore unseen [] = [] := by
  rw [explore]
  cases unseen.length <;> rfl

variable (types) in
/-- The induction that a search goes along. -/
theorem explore_induct {motive : List String → List String → Prop}
    (nil : ∀ unseen, motive unseen [])
    (pass : ∀ unseen name pending, name ∉ unseen → motive unseen pending →
      motive unseen (name :: pending))
    (enter : ∀ unseen name pending, name ∈ unseen →
      motive (unseen.erase name) ((types.get? name).elim [] Definition.mentioned ++ pending) →
      motive unseen (name :: pending))
    (unseen pending : List String) : motive unseen pending := by
  generalize hn : unseen.length = n
  induction n using Nat.strongRecOn generalizing unseen pending with
  | _ n ih =>
    induction pending with
    | nil => exact nil unseen
    | cons name pending ihp =>
      by_cases hm : name ∈ unseen
      · have hl := List.length_erase_of_mem hm
        have hp := List.length_pos_of_mem hm
        exact enter unseen name pending hm (ih _ (by omega) _ _ rfl)
      · exact pass unseen name pending hm ihp

/-! ## What is found -/

theorem needs_of_mem_explore {unseen pending : List String} {name : String}
    (h : name ∈ types.explore unseen pending) :
    name ∈ unseen ∧ ∃ start ∈ pending, types.Needs start name := by
  induction unseen, pending using explore_induct types with
  | nil unseen => simp [explore_nil] at h
  | pass unseen other pending ho ih =>
    rw [explore_cons_of_not_mem ho] at h
    obtain ⟨hu, start, hs, hn⟩ := ih h
    exact ⟨hu, start, List.mem_cons_of_mem _ hs, hn⟩
  | enter unseen other pending ho ih =>
    rw [explore_cons_of_mem ho, List.mem_cons] at h
    rcases h with rfl | h
    · exact ⟨ho, name, List.mem_cons_self, .refl⟩
    · obtain ⟨hu, start, hs, hn⟩ := ih h
      refine ⟨List.mem_of_mem_erase hu, ?_⟩
      rcases List.mem_append.1 hs with hs | hs
      · exact ⟨other, List.mem_cons_self, .head (mem_mentioned_iff.1 hs) hn⟩
      · exact ⟨start, List.mem_cons_of_mem _ hs, hn⟩

theorem mem_explore_of_pending {unseen pending : List String} {name : String}
    (hp : name ∈ pending) (hu : name ∈ unseen) : name ∈ types.explore unseen pending := by
  induction unseen, pending using explore_induct types with
  | nil unseen => simp at hp
  | pass unseen other pending ho ih =>
    rw [explore_cons_of_not_mem ho]
    have hne : name ≠ other := fun he => ho (he ▸ hu)
    exact ih ((List.mem_cons.1 hp).resolve_left hne) hu
  | enter unseen other pending ho ih =>
    rw [explore_cons_of_mem ho, List.mem_cons]
    by_cases he : name = other
    · exact .inl he
    · have hp' := (List.mem_cons.1 hp).resolve_left he
      exact .inr (ih (List.mem_append_right _ hp') ((List.mem_erase_of_ne he).2 hu))

/-- What is found has been entered, so what it mentions is found as well, unless it had been seen
before. -/
theorem mem_explore_of_mentions {unseen pending : List String} {name other : String}
    (h : name ∈ types.explore unseen pending) (hm : types.Mentions name other)
    (hu : other ∈ unseen) : other ∈ types.explore unseen pending := by
  induction unseen, pending using explore_induct types with
  | nil unseen => simp [explore_nil] at h
  | pass unseen first pending hf ih =>
    rw [explore_cons_of_not_mem hf] at h ⊢
    exact ih h hu
  | enter unseen first pending hf ih =>
    rw [explore_cons_of_mem hf, List.mem_cons] at h ⊢
    by_cases he : other = first
    · exact .inl he
    · right
      have hu' := (List.mem_erase_of_ne he).2 hu
      rcases h with rfl | h
      · exact mem_explore_of_pending (List.mem_append_left _ (mem_mentioned_iff.2 hm)) hu'
      · exact ih h hu'

/-- The search finds the defined names that are needed. -/
theorem mem_reachable_iff {start name : String} :
    name ∈ types.reachable start ↔ types.Needs start name ∧ ∃ d, types.get? name = some d := by
  constructor
  · intro h
    obtain ⟨hu, first, hf, hn⟩ := needs_of_mem_explore h
    rw [List.mem_singleton.1 hf] at hn
    exact ⟨hn, NameMap.mem_names_iff.1 hu⟩
  · rintro ⟨hn, hd⟩
    induction hn with
    | refl => exact mem_explore_of_pending List.mem_cons_self (NameMap.mem_names_iff.2 hd)
    | tail _ hm ih =>
      obtain ⟨d, hget, -⟩ := id hm
      exact mem_explore_of_mentions (ih ⟨d, hget⟩) hm (NameMap.mem_names_iff.2 hd)

theorem get?_restrict_of_needs {start name : String} (h : types.Needs start name) :
    (types.restrict start).get? name = types.get? name := by
  rw [restrict, NameMap.get?_filter]
  cases hd : types.get? name with
  | none => rw [ite_self]
  | some d =>
    rw [if_pos]
    exact List.contains_iff_mem.2 (mem_reachable_iff.2 ⟨h, d, hd⟩)

end Types

end SchemaLang
