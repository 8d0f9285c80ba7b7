import Mathlib.Data.List.Nodup
import SchemaLang.Proofs.Lint.Inheritance

/-!
# Ways to bases

A way goes from a definition to one of its bases, from there to one of that one's bases, and so on;
it is written down as the places of these bases in the lists that they stand in.  A base that is
listed twice lies at the end of two ways, and so does one that two bases share.

A walk does its tasks in a list, so the proofs speak of places in such a list: the place of a task
and a way from there.  Entering a base puts its own tasks before the rest, which moves every place
but that of the base itself (`below`) and moves no two to one.

* `Types.walk_repeats_iff`: a walk meets a base again when two ways end in one name.
* `Types.walk_repeats_of_cycle`: this is so when a definition that is met is its own base.
-/

namespace SchemaLang

namespace Heritage

variable {δ α : Type} {h : Heritage δ α} {types : Types}

/-- The bases on a way are written as their places; those that stand for no definition of the right
kind lead nowhere. -/
inductive Way (h : Heritage δ α) (types : Types) : δ → List Nat → δ → Prop
  | here {d : δ} : Way h types d [] d
  | base {d b e : δ} {i : Nat} {base : String} {way : List Nat} (hi : (h.bases d)[i]? = some base)
      (hb : h.base? types base = some b) (hw : Way h types b way e) : Way h types d (i :: way) e

theorem Way.append {d b e : δ} {way way' : List Nat} (hw : h.Way types d way b)
    (hw' : h.Way types b way' e) : h.Way types d (way ++ way') e := by
  induction hw with
  | here => exact hw'
  | base hi hb _ ih => exact .base hi hb (ih hw')

theorem Way.name_mem_ownNames (hn : h.Named) {b e : δ} {way : List Nat}
    (hw : h.Way types b way e) (hb : h.name b ∈ types.ownNames) : h.name e ∈ types.ownNames := by
  induction hw with
  | here => exact hb
  | base _ hb' _ ih => exact ih (Heritage.name_mem_ownNames hn hb')

/-! ## Places in a list of tasks -/

/-- From a base that is to be entered a way leads on. -/
def Meets (h : Heritage δ α) (types : Types) (tasks : List (Task δ)) (place : Nat × List Nat)
    (e : δ) : Prop :=
  ∃ base b, tasks[place.1]? = some (.enter base) ∧ h.base? types base = some b
    ∧ h.Way types b place.2 e

theorem getElem?_tasks_eq_enter_iff {d : δ} {i : Nat} {base : String} :
    (h.tasks d)[i]? = some (.enter base) ↔ (h.bases d)[i]? = some base := by
  rw [tasks, List.getElem?_append]
  split
  · simp [List.getElem?_map]
  · next hi =>
    rw [List.length_map] at hi
    rw [List.getElem?_eq_none (Nat.not_lt.1 hi)]
    cases i - ((h.bases d).map Task.enter).length <;> simp

theorem meets_tasks_iff {d e : δ} {i : Nat} {way : List Nat} :
    h.Meets types (h.tasks d) (i, way) e ↔ h.Way types d (i :: way) e := by
  simp only [Meets, getElem?_tasks_eq_enter_iff]
  constructor
  · rintro ⟨base, b, hi, hb, hw⟩
    exact .base hi hb hw
  · intro hw
    cases hw with
    | base hi hb hw => exact ⟨_, _, hi, hb, hw⟩

theorem exists_meets_tasks {d e : δ} {way : List Nat} (hw : h.Way types d way e) (hne : way ≠ []) :
    ∃ place, way = place.1 :: place.2 ∧ h.Meets types (h.tasks d) place e := by
  cases way with
  | nil => exact absurd rfl hne
  | cons i way => exact ⟨(i, way), rfl, meets_tasks_iff.2 hw⟩

theorem Meets.name_mem_ownNames (hn : h.Named) {tasks : List (Task δ)} {place : Nat × List Nat}
    {e : δ} (hm : h.Meets types tasks place e) : h.name e ∈ types.ownNames := by
  obtain ⟨base, b, -, hb, hw⟩ := hm
  exact hw.name_mem_ownNames hn (Heritage.name_mem_ownNames hn hb)

theorem not_meets_nil {place : Nat × List Nat} {e : δ} : ¬h.Meets types [] place e := by
  simp [Meets]

/-- The first task meets nothing, so everything is met one place further on. -/
def later (place : Nat × List Nat) : Nat × List Nat := (place.1 + 1, place.2)

theorem later_injective : Function.Injective later := by
  rintro ⟨i, way⟩ ⟨j, way'⟩ he
  simpa [later] using he

theorem Meets.later {t : Task δ} {rest : List (Task δ)} {place : Nat × List Nat} {e : δ}
    (hm : h.Meets types rest place e) : h.Meets types (t :: rest) (later place) e := hm

/-- A task that enters no definition meets nothing itself. -/
theorem Meets.exists_later {t : Task δ} {rest : List (Task δ)} {place : Nat × List Nat} {e : δ}
    (ht : ∀ base, t = .enter base → h.base? types base = none)
    (hm : h.Meets types (t :: rest) place e) :
    ∃ place', place = Heritage.later place' ∧ h.Meets types rest place' e := by
  obtain ⟨i, way⟩ := place
  cases i with
  | zero =>
    obtain ⟨base, b, hi, hb, -⟩ := hm
    rw [List.getElem?_cons_zero, Option.some.injEq] at hi
    simp [ht base hi] at hb
  | succ i => exact ⟨(i, way), rfl, hm⟩

/-- The first `n` tasks are those of the base that stood before the others. -/
def below (n : Nat) (place : Nat × List Nat) : Nat × List Nat :=
  if place.1 < n then (0, place.1 :: place.2) else (place.1 - n + 1, place.2)

theorem below_injective (n : Nat) : Function.Injective (below n) := by
  rintro ⟨i, way⟩ ⟨j, way'⟩ he
  simp only [below] at he
  split at he <;> split at he <;> simp only [Prod.mk.injEq, List.cons.injEq] at he
  · rw [he.2.1, he.2.2]
  · omega
  · omega
  · rw [show i = j by omega, he.2]

theorem below_ne (n : Nat) (place : Nat × List Nat) : below n place ≠ (0, []) := by
  rw [below]
  split <;> simp

theorem meets_enter {base : String} {b : δ} (rest : List (Task δ))
    (hb : h.base? types base = some b) : h.Meets types (.enter base :: rest) (0, []) b :=
  ⟨base, b, rfl, hb, .here⟩

theorem Meets.below {base : String} {b e : δ} {rest : List (Task δ)} {place : Nat × List Nat}
    (hb : h.base? types base = some b) (hm : h.Meets types (h.tasks b ++ rest) place e) :
    h.Meets types (.enter base :: rest) (below (h.tasks b).length place) e := by
  obtain ⟨i, way⟩ := place
  obtain ⟨base', b', hi, hb', hw⟩ := hm
  rw [Heritage.below]
  split
  · next hlt =>
    rw [List.getElem?_append_left hlt] at hi
    exact ⟨base, b, rfl, hb, meets_tasks_iff.1 ⟨base', b', hi, hb', hw⟩⟩
  · next hge =>
    rw [List.getElem?_append_right (Nat.not_lt.1 hge)] at hi
    exact ⟨base', b', hi, hb', hw⟩

/-- A base is met itself, or something is met on the way from it or by the other tasks. -/
theorem Meets.eq_or_exists_below {base : String} {b e : δ} {rest : List (Task δ)}
    {place : Nat × List Nat} (hb : h.base? types base = some b)
    (hm : h.Meets types (.enter base :: rest) place e) :
    (place = (0, []) ∧ e = b)
      ∨ ∃ place', place = Heritage.below (h.tasks b).length place'
        ∧ h.Meets types (h.tasks b ++ rest) place' e := by
  obtain ⟨i, way⟩ := place
  obtain ⟨base', b', hi, hb', hw⟩ := hm
  cases i with
  | zero =>
    obtain rfl : base = base' := by simpa using hi
    obtain rfl : b = b' := Option.some.inj (hb.symm.trans hb')
    cases hw with
    | here => exact .inl ⟨rfl, rfl⟩
    | @base _ _ _ j _ way hj hc hw =>
      obtain ⟨base', b', hi', hb', hw'⟩ := meets_tasks_iff.2 (.base hj hc hw)
      have hlt : j < (h.tasks b).length := (List.getElem?_eq_some_iff.1 hi').1
      refine .inr ⟨(j, way), by rw [Heritage.below, if_pos hlt], base', b', ?_, hb', hw'⟩
      rw [List.getElem?_append_left hlt]
      exact hi'
  | succ i =>
    refine .inr ⟨((h.tasks b).length + i, way), ?_, base', b', ?_, hb', hw⟩
    · simp [Heritage.below]
    · rw [List.getElem?_append_right (Nat.le_add_right _ _), Nat.add_sub_cancel_left]
      exact hi

/-! ## Names that are met twice -/

/-- Definitions of one name are met at two places. -/
def MeetsTwice (h : Heritage δ α) (types : Types) (tasks : List (Task δ)) : Prop :=
  ∃ place place' e e', place ≠ place' ∧ h.Meets types tasks place e
    ∧ h.Meets types tasks place' e' ∧ h.name e = h.name e'

theorem MeetsTwice.later {t : Task δ} {rest : List (Task δ)} (hm : h.MeetsTwice types rest) :
    h.MeetsTwice types (t :: rest) := by
  obtain ⟨place, place', e, e', hne, hm, hm', he⟩ := hm
  exact ⟨_, _, e, e', later_injective.ne hne, hm.later, hm'.later, he⟩

theorem MeetsTwice.below {base : String} {b : δ} {rest : List (Task δ)}
    (hb : h.base? types base = some b) (hm : h.MeetsTwice types (h.tasks b ++ rest)) :
    h.MeetsTwice types (.enter base :: rest) := by
  obtain ⟨place, place', e, e', hne, hm, hm', he⟩ := hm
  exact ⟨_, _, e, e', (below_injective _).ne hne, hm.below hb, hm'.below hb, he⟩

/-- A walk that meets a base again has met its name twice, or had it on record before it began. -/
theorem meetsTwice_of_run {unseen : List String} {tasks : List (Task δ)}
    (hr : (h.run types unseen tasks).repeats = true) :
    h.MeetsTwice types tasks ∨ ∃ place e, h.Meets types tasks place e ∧ h.name e ∉ unseen := by
  induction unseen, tasks using run_induct h types with
  | nil unseen => simp [run_nil] at hr
  | list unseen d rest ih =>
    rw [run_list] at hr
    rcases ih hr with hm | ⟨place, e, hm, he⟩
    · exact .inl hm.later
    · exact .inr ⟨_, e, hm.later, he⟩
  | none unseen base rest hb ih =>
    rw [run_enter_none hb] at hr
    rcases ih hr with hm | ⟨place, e, hm, he⟩
    · exact .inl hm.later
    · exact .inr ⟨_, e, hm.later, he⟩
  | seen unseen base rest b hb hm => exact .inr ⟨_, b, meets_enter rest hb, hm⟩
  | enter unseen base rest b hb hm ih =>
    rw [run_enter hb hm] at hr
    rcases ih hr with hm' | ⟨place, e, hm', he⟩
    · exact .inl (hm'.below hb)
    · by_cases hname : h.name e = h.name b
      · -- the name was put on record by the base that has just been entered
        exact .inl ⟨_, _, e, b, below_ne _ place, hm'.below hb, meets_enter rest hb, hname⟩
      · refine .inr ⟨_, e, hm'.below hb, fun hmem => he ?_⟩
        exact (List.mem_erase_of_ne hname).2 hmem

/-- What is met stands among the bases that are entered. -/
theorem Unfolds.mem_of_meets {tasks : List (Task δ)} {bases : List String} {items : List α}
    (hu : h.Unfolds types tasks bases items) {place : Nat × List Nat} {e : δ}
    (hm : h.Meets types tasks place e) : h.name e ∈ bases := by
  induction hu generalizing place with
  | nil => exact absurd hm not_meets_nil
  | list _ ih =>
    obtain ⟨_, -, hm⟩ := hm.exists_later (by simp)
    exact ih hm
  | pass hb _ ih =>
    obtain ⟨_, -, hm⟩ := hm.exists_later (by rintro _ ⟨⟩; exact hb)
    exact ih hm
  | enter hb _ ih =>
    rcases hm.eq_or_exists_below hb with ⟨-, rfl⟩ | ⟨_, -, hm⟩
    · exact List.mem_cons_self
    · exact List.mem_cons_of_mem _ (ih hm)

/-- Where the bases that are entered have names of their own, no name is met twice. -/
theorem Unfolds.not_meetsTwice {tasks : List (Task δ)} {bases : List String} {items : List α}
    (hu : h.Unfolds types tasks bases items) (hn : bases.Nodup) : ¬h.MeetsTwice types tasks := by
  rintro ⟨place, place', e, e', hne, hm, hm', he⟩
  apply hne
  clear hne
  induction hu generalizing place place' with
  | nil => exact absurd hm not_meets_nil
  | list _ ih =>
    obtain ⟨p, rfl, hm⟩ := hm.exists_later (by simp)
    obtain ⟨p', rfl, hm'⟩ := hm'.exists_later (by simp)
    rw [ih hn p p' hm hm']
  | pass hb _ ih =>
    obtain ⟨p, rfl, hm⟩ := hm.exists_later (by rintro _ ⟨⟩; exact hb)
    obtain ⟨p', rfl, hm'⟩ := hm'.exists_later (by rintro _ ⟨⟩; exact hb)
    rw [ih hn p p' hm hm']
  | enter hb hr ih =>
    obtain ⟨hnot, hn⟩ := List.nodup_cons.1 hn
    rcases hm.eq_or_exists_below hb with ⟨rfl, rfl⟩ | ⟨p, rfl, hp⟩ <;>
      rcases hm'.eq_or_exists_below hb with ⟨rfl, rfl⟩ | ⟨p', rfl, hp'⟩
    · rfl
    · exact absurd (he ▸ hr.mem_of_meets hp') hnot
    · exact absurd (he ▸ hr.mem_of_meets hp) hnot
    · rw [ih hn p p' hp hp']

end Heritage

namespace Types

variable {δ α : Type} {h : Heritage δ α} {types : Types}

theorem walk_repeats_iff_meetsTwice (hn : h.Named) {d : δ} :
    (types.walk h d).repeats = true ↔ h.MeetsTwice types (h.tasks d) := by
  constructor
  · intro hr
    rcases Heritage.meetsTwice_of_run hr with hm | ⟨place, e, hm, he⟩
    · exact hm
    · exact absurd (hm.name_mem_ownNames hn) he
  · intro hm
    by_contra hr
    obtain ⟨bases, hu, hb, -⟩ :=
      Heritage.unfolds_of_run (nodup_eraseDups _) (Bool.eq_false_iff.2 hr)
    exact hu.not_meetsTwice hb hm

/-- A walk meets a base again when two ways, both of at least one step, end in definitions of one
name. -/
theorem walk_repeats_iff (hn : h.Named) {d : δ} :
    (types.walk h d).repeats = true ↔ ∃ way way' e e', way ≠ [] ∧ way' ≠ [] ∧ way ≠ way'
      ∧ h.Way types d way e ∧ h.Way types d way' e' ∧ h.name e = h.name e' := by
  rw [walk_repeats_iff_meetsTwice hn]
  constructor
  · rintro ⟨⟨i, way⟩, ⟨j, way'⟩, e, e', hne, hm, hm', he⟩
    refine ⟨i :: way, j :: way', e, e', by simp, by simp, ?_, Heritage.meets_tasks_iff.1 hm,
      Heritage.meets_tasks_iff.1 hm', he⟩
    simpa using hne
  · rintro ⟨way, way', e, e', hw, hw', hne, hm, hm', he⟩
    obtain ⟨place, rfl, hp⟩ := Heritage.exists_meets_tasks hm hw
    obtain ⟨place', rfl, hp'⟩ := Heritage.exists_meets_tasks hm' hw'
    exact ⟨place, place', e, e', fun heq => hne (by rw [heq]), hp, hp', he⟩

/-- Round a cycle one comes to the same definition on ever longer ways. -/
theorem walk_repeats_of_cycle (hn : h.Named) {d e : δ} {way round : List Nat}
    (hw : h.Way types d way e) (hr : h.Way types e round e) (hne : round ≠ []) :
    (types.walk h d).repeats = true := by
  refine (walk_repeats_iff hn).2 ⟨way ++ round, way ++ (round ++ round), e, e, by simp [hne],
    by simp [hne], ?_, hw.append hr, hw.append (hr.append hr), rfl⟩
  simpa using hne

end Types

end SchemaLang
