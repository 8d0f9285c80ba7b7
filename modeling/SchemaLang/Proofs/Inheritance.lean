import Mathlib.Data.List.Basic
import SchemaLang.Model.Inheritance

/-!
# What a definition inherits

`HasItem` says without any walk which items a definition has: its own ones and those of its bases.
A walk lists nothing else, and everything of it unless it met a base again.

* `hasItem_of_mem_walk`: what a walk lists is own or inherited.
* `mem_walk_iff`: a walk that meets no base again lists all of it.
-/

namespace SchemaLang

namespace Heritage

variable {δ α : Type} {h : Heritage δ α} {types : Types}

/-- The items of a definition and, on whatever way, of its bases. -/
inductive HasItem (h : Heritage δ α) (types : Types) : δ → α → Prop
  | own {d : δ} {a : α} (ha : a ∈ h.items d) : HasItem h types d a
  | inherited {d b : δ} {base : String} {a : α} (hm : base ∈ h.bases d)
      (hb : h.base? types base = some b) (ha : HasItem h types b a) : HasItem h types d a

/-- The items that a task is to list. -/
def Task.Has (h : Heritage δ α) (types : Types) (a : α) : Task δ → Prop
  | .enter base => ∃ b, h.base? types base = some b ∧ h.HasItem types b a
  | .list d => a ∈ h.items d

theorem hasItem_iff_tasks {d : δ} {a : α} :
    h.HasItem types d a ↔ ∃ t ∈ h.tasks d, t.Has h types a := by
  constructor
  · intro hi
    cases hi with
    | own ha => exact ⟨.list d, by simp [tasks], ha⟩
    | @inherited _ b base _ hm hb ha => exact ⟨.enter base, by simp [tasks, hm], b, hb, ha⟩
  · rintro ⟨t, ht, hi⟩
    rw [tasks, List.mem_append, List.mem_map, List.mem_singleton] at ht
    rcases ht with ⟨base, hm, rfl⟩ | rfl
    · obtain ⟨b, hb, ha⟩ := hi
      exact .inherited hm hb ha
    · exact .own hi

/-! ## Steps of a walk -/

theorem run_nil (unseen : List String) : h.run types unseen [] = ⟨[], false⟩ := by
  rw [run]
  cases unseen.length <;> rfl

theorem run_enter_none {unseen : List String} {base : String} {rest : List (Task δ)}
    (hb : h.base? types base = none) :
    h.run types unseen (.enter base :: rest) = h.run types unseen rest := by
  rw [run]
  cases unseen.length <;> simp [runFor, runWith, hb]

theorem run_enter_seen {unseen : List String} {base : String} {b : δ} {rest : List (Task δ)}
    (hb : h.base? types base = some b) (hm : h.name b ∉ unseen) :
    h.run types unseen (.enter base :: rest) = ⟨[], true⟩ := by
  rw [run]
  cases unseen.length <;> simp [runFor, runWith, hb, hm]

variable (h types) in
/-- The induction that a walk goes along. -/
theorem run_induct {motive : List String → List (Task δ) → Prop}
    (nil : ∀ unseen, motive unseen [])
    (list : ∀ unseen d rest, motive unseen rest → motive unseen (.list d :: rest))
    (none : ∀ unseen base rest, h.base? types base = none → motive unseen rest →
      motive unseen (.enter base :: rest))
    (seen : ∀ unseen base rest b, h.base? types base = some b → h.name b ∉ unseen →
      motive unseen (.enter base :: rest))
    (enter : ∀ unseen base rest b, h.base? types base = some b → h.name b ∈ unseen →
      motive (unseen.erase (h.name b)) (h.tasks b ++ rest) → motive unseen (.enter base :: rest))
    (unseen : List String) (tasks : List (Task δ)) : motive unseen tasks := by
  generalize hn : unseen.length = n
  induction n using Nat.strongRecOn generalizing unseen tasks with
  | _ n ih =>
    induction tasks with
    | nil => exact nil unseen
    | cons t rest ihr =>
      cases t with
      | list d => exact list unseen d rest ihr
      | enter base =>
        cases hb : h.base? types base with
        | none => exact none unseen base rest hb ihr
        | some b =>
          by_cases hm : h.name b ∈ unseen
          · have hl := List.length_erase_of_mem hm
            have hp := List.length_pos_of_mem hm
            exact enter unseen base rest b hb hm (ih _ (by omega) _ _ rfl)
          · exact seen unseen base rest b hb hm

theorem has_of_mem_run {unseen : List String} {tasks : List (Task δ)} {a : α}
    (ha : a ∈ (h.run types unseen tasks).items) : ∃ t ∈ tasks, t.Has h types a := by
  induction unseen, tasks using run_induct h types with
  | nil unseen => simp [run_nil] at ha
  | list unseen d rest ih =>
    rw [run_list, List.mem_append] at ha
    rcases ha with ha | ha
    · exact ⟨.list d, List.mem_cons_self, ha⟩
    · obtain ⟨t, ht, hi⟩ := ih ha
      exact ⟨t, List.mem_cons_of_mem _ ht, hi⟩
  | none unseen base rest hb ih =>
    rw [run_enter_none hb] at ha
    obtain ⟨t, ht, hi⟩ := ih ha
    exact ⟨t, List.mem_cons_of_mem _ ht, hi⟩
  | seen unseen base rest b hb hm => simp [run_enter_seen hb hm] at ha
  | enter unseen base rest b hb hm ih =>
    rw [run_enter hb hm] at ha
    obtain ⟨t, ht, hi⟩ := ih ha
    rcases List.mem_append.1 ht with ht | ht
    · exact ⟨.enter base, List.mem_cons_self, b, hb, hasItem_iff_tasks.2 ⟨t, ht, hi⟩⟩
    · exact ⟨t, List.mem_cons_of_mem _ ht, hi⟩

theorem mem_run_of_has {unseen : List String} {tasks : List (Task δ)} {a : α}
    (hr : (h.run types unseen tasks).repeats = false)
    (ha : ∃ t ∈ tasks, t.Has h types a) : a ∈ (h.run types unseen tasks).items := by
  induction unseen, tasks using run_induct h types with
  | nil unseen => simp at ha
  | list unseen d rest ih =>
    rw [run_list] at hr ⊢
    rw [List.mem_append]
    rcases (List.exists_mem_cons_iff _ _ _).1 ha with ha | ha
    · exact .inl ha
    · exact .inr (ih hr ha)
  | none unseen base rest hb ih =>
    rw [run_enter_none hb] at hr ⊢
    rcases (List.exists_mem_cons_iff _ _ _).1 ha with ⟨b, hb', _⟩ | ha
    · simp [hb] at hb'
    · exact ih hr ha
  | seen unseen base rest b hb hm => simp [run_enter_seen hb hm] at hr
  | enter unseen base rest b hb hm ih =>
    rw [run_enter hb hm] at hr ⊢
    apply ih hr
    rcases (List.exists_mem_cons_iff _ _ _).1 ha with ⟨b', hb', ha⟩ | ⟨t, ht, hi⟩
    · rw [hb] at hb'
      cases hb'
      obtain ⟨t, ht, hi⟩ := hasItem_iff_tasks.1 ha
      exact ⟨t, List.mem_append_left _ ht, hi⟩
    · exact ⟨t, List.mem_append_right _ ht, hi⟩

end Heritage

namespace Types

variable {δ α : Type} {h : Heritage δ α} {types : Types}

theorem hasItem_of_mem_walk {d : δ} {a : α} (ha : a ∈ (types.walk h d).items) :
    h.HasItem types d a :=
  Heritage.hasItem_iff_tasks.2 (Heritage.has_of_mem_run ha)

theorem mem_walk_iff {d : δ} {a : α} (hr : (types.walk h d).repeats = false) :
    a ∈ (types.walk h d).items ↔ h.HasItem types d a :=
  ⟨hasItem_of_mem_walk, fun hi => Heritage.mem_run_of_has hr (Heritage.hasItem_iff_tasks.1 hi)⟩

end Types

end SchemaLang
