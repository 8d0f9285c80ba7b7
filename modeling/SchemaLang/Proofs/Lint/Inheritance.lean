import Mathlib.Data.List.Nodup
import SchemaLang.Proofs.WellFormed

/-!
# Bases and what is inherited from them

The definition that a base stands for is found by chasing aliases, and an inheritance walk keeps a
record of the names that it has not entered.  Neither matters to what is found.

* `Types.denotes_iff`: what a name stands for is found.
* `Types.regular_iff`: a walk that keeps its record meets no base again when there is none to be
  met again.
* `Types.walk_infix`: a definition lists the items of each of its bases as the base does.
-/

namespace SchemaLang

variable {types : Types}

/-! ## What a base stands for -/

namespace Types

theorem denotes_iff {name : String} {d : Definition} :
    types.Denotes name d ↔ types.effectiveDefinition? name = some d ∧ ∀ t, d ≠ .typedef t := by
  constructor
  · rintro ⟨aliases, target, hl, hd⟩
    have ht : ∀ t, d ≠ .typedef t := by
      rintro t rfl
      have hnt := hl.target
      rw [isTypedef_user hd] at hnt
      simp at hnt
    refine ⟨?_, ht⟩
    rw [effectiveDefinition?]
    cases hl with
    | here h =>
      rw [hd]
      split
      · next t he => exact absurd (Option.some.inj he) (ht t)
      · rfl
    | step hn hl =>
      simp only [hn, effective_of_leads hl]
      exact hd
  · rintro ⟨he, ht⟩
    rw [effectiveDefinition?] at he
    split at he
    · next t hn =>
      split at he
      · next target hf =>
        have hnt : types.isTypedef (.user target) = false := by
          rw [isTypedef, he]
          split
          · next u hu => exact absurd (Option.some.inj hu) (ht u)
          · rfl
        have hl : types.Leads t.type (types.resolve t.type).1 (types.resolve t.type).2 :=
          leads_iff.2 ⟨by rw [isCircular, hf]; exact hnt, rfl⟩
        have hr : (types.resolve t.type).2 = .user target := hf
        rw [hr] at hl
        exact ⟨_, target, .step hn hl, he⟩
      · simp at he
    · next hn =>
      refine ⟨[], name, .here ?_, he⟩
      rw [isTypedef]
      split
      · next t hd => exact absurd hd (hn t)
      · rfl

theorem structBase?_eq_some_iff {base : String} {b : Struct} :
    Struct.heritage.base? types base = some b ↔ types.Denotes base (.struct b) := by
  rw [Heritage.base?, Option.bind_eq_some_iff, denotes_iff]
  constructor
  · rintro ⟨d, hd, hb⟩
    cases d <;> cases hb
    exact ⟨hd, by simp⟩
  · rintro ⟨hd, -⟩
    exact ⟨_, hd, rfl⟩

theorem enumBase?_eq_some_iff {base : String} {b : Enum} :
    Enum.heritage.base? types base = some b ↔ types.Denotes base (.enum b) := by
  rw [Heritage.base?, Option.bind_eq_some_iff, denotes_iff]
  constructor
  · rintro ⟨d, hd, hb⟩
    cases d <;> cases hb
    exact ⟨hd, by simp⟩
  · rintro ⟨hd, -⟩
    exact ⟨_, hd, rfl⟩

theorem Denotes.exists_get? {name : String} {d : Definition} (h : types.Denotes name d) :
    ∃ target, types.get? target = some d := by
  obtain ⟨_, target, _, hd⟩ := h
  exact ⟨target, hd⟩

end Types

/-! ## The names that a walk may enter -/

theorem nodup_eraseDups {α : Type} [BEq α] [LawfulBEq α] (l : List α) : l.eraseDups.Nodup := by
  generalize hn : l.length = n
  induction n using Nat.strongRecOn generalizing l with
  | _ n ih =>
    cases l with
    | nil => exact List.nodup_nil
    | cons a l =>
      have hl := List.length_filter_le (fun b => !b == a) l
      rw [List.eraseDups_cons, List.nodup_cons]
      refine ⟨by simp [List.mem_eraseDups], ih _ ?_ _ rfl⟩
      rw [List.length_cons] at hn
      omega

namespace Heritage

variable {δ α : Type} {h : Heritage δ α}

/-- A definition has the name of what it is found as. -/
def Named (h : Heritage δ α) : Prop :=
  ∀ d b, h.ofDefinition? d = some b → h.name b = d.name

theorem named_struct : Struct.heritage.Named := by
  rintro d b hb
  cases d <;> cases hb
  rfl

theorem named_enum : Enum.heritage.Named := by
  rintro d b hb
  cases d <;> cases hb
  rfl

theorem name_mem_ownNames (hn : h.Named) {base : String} {b : δ}
    (hb : h.base? types base = some b) : h.name b ∈ types.ownNames := by
  obtain ⟨d, hd, hdb⟩ := Option.bind_eq_some_iff.1 hb
  obtain ⟨target, ht⟩ : ∃ target, types.get? target = some d := by
    rw [Types.effectiveDefinition?] at hd
    split at hd
    · split at hd
      · next target _ => exact ⟨target, hd⟩
      · simp at hd
    · exact ⟨base, hd⟩
  rw [Types.ownNames, List.mem_eraseDups, hn d b hdb]
  exact List.mem_map_of_mem (f := fun e : String × Definition => e.2.name)
    (NameMap.get?_eq_some_iff.1 ht)

theorem Unfolds.mem_ownNames (hn : h.Named) {tasks : List (Task δ)} {bases : List String}
    {items : List α} (hu : h.Unfolds types tasks bases items) :
    ∀ name ∈ bases, name ∈ types.ownNames := by
  induction hu with
  | nil => simp
  | list _ ih => exact ih
  | pass _ _ ih => exact ih
  | enter hb _ ih => exact List.forall_mem_cons.2 ⟨name_mem_ownNames hn hb, ih⟩

/-! ## Walks one after the other -/

/-- Tasks in two parts are done one part after the other. -/
theorem Unfolds.of_append {first second : List (Task δ)} {bases : List String} {items : List α}
    (hu : h.Unfolds types (first ++ second) bases items) :
    ∃ bases₁ items₁ bases₂ items₂, h.Unfolds types first bases₁ items₁
      ∧ h.Unfolds types second bases₂ items₂
      ∧ bases = bases₁ ++ bases₂ ∧ items = items₁ ++ items₂ := by
  generalize ht : first ++ second = tasks at hu
  -- The induction is on the whole walk: a base that is entered puts its tasks before both parts.
  induction hu generalizing first with
  | nil =>
    obtain ⟨rfl, rfl⟩ := List.append_eq_nil_iff.1 ht
    exact ⟨[], [], [], [], .nil, .nil, rfl, rfl⟩
  | @list d rest bases items hr ih =>
    rcases List.append_eq_cons_iff.1 ht with ⟨rfl, rfl⟩ | ⟨first, rfl, rfl⟩
    · exact ⟨[], [], _, _, .nil, .list hr, rfl, rfl⟩
    · obtain ⟨bases₁, items₁, bases₂, items₂, h₁, h₂, rfl, rfl⟩ := ih rfl
      exact ⟨_, _, _, _, .list h₁, h₂, rfl, (List.append_assoc _ _ _).symm⟩
  | @pass base rest bases items hb hr ih =>
    rcases List.append_eq_cons_iff.1 ht with ⟨rfl, rfl⟩ | ⟨first, rfl, rfl⟩
    · exact ⟨[], [], _, _, .nil, .pass hb hr, rfl, rfl⟩
    · obtain ⟨bases₁, items₁, bases₂, items₂, h₁, h₂, rfl, rfl⟩ := ih rfl
      exact ⟨_, _, _, _, .pass hb h₁, h₂, rfl, rfl⟩
  | @enter base b rest bases items hb hr ih =>
    rcases List.append_eq_cons_iff.1 ht with ⟨rfl, rfl⟩ | ⟨first, rfl, rfl⟩
    · exact ⟨[], [], _, _, .nil, .enter hb hr, rfl, rfl⟩
    · obtain ⟨bases₁, items₁, bases₂, items₂, h₁, h₂, rfl, rfl⟩ :=
        ih (List.append_assoc _ _ _)
      exact ⟨_, _, _, _, .enter hb h₁, h₂, rfl, rfl⟩

/-- The walk from a base is a part of the walk from a definition that has it. -/
theorem Unfolds.base {d b : δ} {base : String} {bases : List String} {items : List α}
    (hu : h.Unfolds types (h.tasks d) bases items) (hm : base ∈ h.bases d)
    (hb : h.base? types base = some b) :
    ∃ bases' items', h.Unfolds types (h.tasks b) bases' items'
      ∧ List.Sublist bases' bases ∧ items' <:+: items := by
  obtain ⟨before, after, hsplit⟩ := List.append_of_mem hm
  have htasks : h.tasks d = before.map .enter
      ++ ([.enter base] ++ (after.map .enter ++ [.list d])) := by
    simp [tasks, hsplit]
  rw [htasks] at hu
  obtain ⟨bases₁, items₁, _, _, -, hrest, rfl, rfl⟩ := hu.of_append
  obtain ⟨basesB, itemsB, bases₂, items₂, hbase, -, rfl, rfl⟩ := hrest.of_append
  cases hbase with
  | pass hn _ => exact absurd (hb.symm.trans hn) (by simp)
  | @enter _ b' _ bases' _ hb' hr =>
    obtain rfl : b = b' := Option.some.inj (hb.symm.trans hb')
    rw [List.append_nil] at hr
    refine ⟨bases', itemsB, hr, ?_, items₁, items₂, List.append_assoc _ _ _⟩
    refine List.Sublist.trans ?_ (List.sublist_append_right _ _)
    exact (List.sublist_cons_self _ _).trans (List.sublist_append_left _ _)

/-! ## Walks with a record -/

theorem Unfolds.run {tasks : List (Task δ)} {bases : List String} {items : List α}
    (hu : h.Unfolds types tasks bases items) (hn : bases.Nodup) {unseen : List String}
    (hs : ∀ name ∈ bases, name ∈ unseen) : h.run types unseen tasks = ⟨items, false⟩ := by
  induction hu generalizing unseen with
  | nil => exact run_nil unseen
  | list _ ih => rw [run_list, ih hn hs]
  | pass hb _ ih => rw [run_enter_none hb, ih hn hs]
  | enter hb _ ih =>
    obtain ⟨hnot, hn⟩ := List.nodup_cons.1 hn
    rw [run_enter hb (hs _ List.mem_cons_self)]
    refine ih hn fun name hm => ?_
    have hne : name ≠ h.name _ := fun he => hnot (he ▸ hm)
    exact (List.mem_erase_of_ne hne).2 (hs name (List.mem_cons_of_mem _ hm))

theorem unfolds_of_run {unseen : List String} {tasks : List (Task δ)} (hu : unseen.Nodup)
    (hr : (h.run types unseen tasks).repeats = false) :
    ∃ bases, h.Unfolds types tasks bases (h.run types unseen tasks).items ∧ bases.Nodup
      ∧ ∀ name ∈ bases, name ∈ unseen := by
  induction unseen, tasks using run_induct h types with
  | nil unseen =>
    rw [run_nil]
    exact ⟨[], .nil, List.nodup_nil, by simp⟩
  | list unseen d rest ih =>
    rw [run_list] at hr ⊢
    obtain ⟨bases, hb, hn, hs⟩ := ih hu hr
    exact ⟨bases, .list hb, hn, hs⟩
  | none unseen base rest hb ih =>
    rw [run_enter_none hb] at hr ⊢
    obtain ⟨bases, hu, hn, hs⟩ := ih hu hr
    exact ⟨bases, .pass hb hu, hn, hs⟩
  | seen unseen base rest b hb hm => simp [run_enter_seen hb hm] at hr
  | enter unseen base rest b hb hm ih =>
    rw [run_enter hb hm] at hr ⊢
    obtain ⟨bases, hub, hn, hs⟩ := ih (hu.erase _) hr
    have hnot : h.name b ∉ bases := fun hm' => hu.not_mem_erase (hs _ hm')
    refine ⟨h.name b :: bases, .enter hb hub, List.nodup_cons.2 ⟨hnot, hn⟩, ?_⟩
    exact List.forall_mem_cons.2 ⟨hm, fun name hm' => List.mem_of_mem_erase (hs name hm')⟩

end Heritage

namespace Types

variable {δ α : Type} {h : Heritage δ α}

theorem regular_iff (hn : h.Named) {name : α → String} {d : δ} :
    h.Regular types name d
      ↔ (types.walk h d).repeats = false ∧ ((types.walk h d).items.map name).Nodup := by
  constructor
  · rintro ⟨bases, items, hu, hb, hi⟩
    rw [walk, hu.run hb (hu.mem_ownNames hn)]
    exact ⟨rfl, hi⟩
  · rintro ⟨hr, hi⟩
    obtain ⟨bases, hu, hb, -⟩ := Heritage.unfolds_of_run (nodup_eraseDups _) hr
    exact ⟨bases, _, hu, hb, hi⟩

/-- What is inherited from a base stands together, in the order of the base. -/
theorem walk_infix (hn : h.Named) {name : α → String} {d b : δ} {base : String}
    (hr : h.Regular types name d) (hm : base ∈ h.bases d) (hb : h.base? types base = some b) :
    (types.walk h b).items <:+: (types.walk h d).items := by
  obtain ⟨bases, items, hu, hnodup, -⟩ := hr
  obtain ⟨bases', items', hu', hsub, hinfix⟩ := hu.base hm hb
  rw [walk, walk, hu.run hnodup (hu.mem_ownNames hn),
    hu'.run (hnodup.sublist hsub) (hu'.mem_ownNames hn)]
  exact hinfix

end Types

end SchemaLang
