import Mathlib.Data.List.TakeWhile
import Mathlib.Tactic.ByContra
import SchemaLang.Source.Scan

/-!
# What the scanners take

A scanner takes as much as it can: what it leaves does not go on in the same way.  `Run` says so of
characters of one kind, and each scanner is described by it, without the order in which it looks at
the text.

* `run_iff`: a run is what is taken and dropped while a condition holds.
* `blanks?_eq_some_iff` to `digits?_eq_some_iff`: what each scanner answers.
-/

namespace SchemaLang.Source

variable {cs rest : List Char}

/-- Characters of a kind at the front of a text, as many as there are, and the rest. -/
structure Run (p : Char → Bool) (cs run rest : List Char) : Prop where
  eq : cs = run ++ rest
  all : ∀ c ∈ run, p c = true
  ends : ∀ c ∈ rest.head?, p c = false

/-- Blanks alone, perhaps none. -/
def Blank (cs : List Char) : Prop := ∀ c ∈ cs, isBlank c = true

instance (cs : List Char) : Decidable (Blank cs) :=
  List.decidableBAll (fun c => isBlank c = true) cs

/-- Blanks that part two pieces of a line. -/
def Gap (cs : List Char) : Prop := cs ≠ [] ∧ Blank cs

instance (cs : List Char) : Decidable (Gap cs) := inferInstanceAs (Decidable (_ ∧ _))

theorem eq_of_isBlank {c : Char} (h : isBlank c = true) : c = ' ' ∨ c = '\t' := by
  simpa [isBlank] using h

theorem isBlank_of_isAlpha {c : Char} (h : c.isAlpha = true) : isBlank c = false := by
  rw [← Bool.not_eq_true]
  intro hb
  rcases eq_of_isBlank hb with rfl | rfl <;> exact absurd h (by decide)

theorem Blank.head? (h : Blank cs) : ∀ c ∈ cs.head?, isBlank c = true :=
  fun c hc => h c (List.mem_of_mem_head? hc)

theorem Blank.filter (h : Blank cs) : cs.filter (fun c => !isBlank c) = [] := by
  rw [List.filter_eq_nil_iff]
  intro c hc
  simp [h c hc]

theorem Gap.head?_append {gap : List Char} (h : Gap gap) (cs : List Char) :
    ∀ c ∈ (gap ++ cs).head?, isBlank c = true := by
  obtain ⟨first, tail, rfl⟩ := List.exists_cons_of_ne_nil h.1
  rintro c ⟨⟩
  exact h.2 _ List.mem_cons_self

theorem run_iff {p : Char → Bool} {run : List Char} :
    Run p cs run rest ↔ cs.takeWhile p = run ∧ cs.dropWhile p = rest := by
  constructor
  · rintro ⟨rfl, hall, hends⟩
    rw [List.takeWhile_append_of_pos hall, List.dropWhile_append_of_pos hall]
    cases rest with
    | nil => exact ⟨List.append_nil run, rfl⟩
    | cons c rest =>
      have hc : ¬p c = true := by simp [hends c rfl]
      rw [List.takeWhile_cons_of_neg hc, List.dropWhile_cons_of_neg hc]
      exact ⟨List.append_nil run, rfl⟩
  · rintro ⟨rfl, rfl⟩
    refine ⟨List.takeWhile_append_dropWhile.symm, fun c hc => List.mem_takeWhile_imp hc, ?_⟩
    intro c hc
    have hnot := List.head?_dropWhile_not p cs
    rwa [Option.mem_def.1 hc] at hnot

theorem skipBlanks_eq_iff : skipBlanks cs = rest ↔ ∃ gap, Run isBlank cs gap rest := by
  constructor
  · intro h
    exact ⟨_, run_iff.2 ⟨rfl, h⟩⟩
  · rintro ⟨gap, h⟩
    exact (run_iff.1 h).2

theorem exists_blank (cs : List Char) : ∃ gap, Blank gap ∧ cs = gap ++ skipBlanks cs := by
  obtain ⟨gap, hrun⟩ := skipBlanks_eq_iff.1 (Eq.refl (skipBlanks cs))
  exact ⟨gap, hrun.all, hrun.eq⟩

theorem blanks?_eq_some_iff :
    blanks? cs = some rest ↔ ∃ gap, gap ≠ [] ∧ Run isBlank cs gap rest := by
  cases cs with
  | nil =>
    refine iff_of_false (by simp [blanks?]) ?_
    rintro ⟨gap, hne, h⟩
    exact hne (List.append_eq_nil_iff.1 h.eq.symm).1
  | cons c cs =>
    rw [blanks?, Option.ite_none_right_eq_some, Option.some.injEq]
    constructor
    · rintro ⟨hc, rfl⟩
      refine ⟨c :: cs.takeWhile isBlank, List.cons_ne_nil _ _, run_iff.2 ?_⟩
      rw [List.takeWhile_cons_of_pos hc, List.dropWhile_cons_of_pos hc]
      exact ⟨rfl, rfl⟩
    · rintro ⟨gap, hne, h⟩
      obtain ⟨htake, hdrop⟩ := run_iff.1 h
      have hc : isBlank c = true := by
        by_contra hc
        exact hne (htake ▸ List.takeWhile_cons_of_neg hc)
      rw [List.dropWhile_cons_of_pos hc] at hdrop
      exact ⟨hc, hdrop⟩

theorem atEnd_iff : atEnd cs = true ↔ Blank cs := by
  rw [atEnd, List.isEmpty_iff, skipBlanks, List.dropWhile_eq_nil_iff, Blank]

theorem word?_eq_some_iff {word : List Char} : word? word cs = some rest ↔ cs = word ++ rest := by
  induction word generalizing cs with
  | nil => exact Option.some_inj
  | cons w word ih =>
    cases cs with
    | nil => simp [word?]
    | cons c cs =>
      rw [word?, Option.ite_none_right_eq_some, ih, List.cons_append, List.cons_eq_cons, eq_comm]

/-- A name, up to where it does not go on. -/
theorem name?_eq_some_iff {name : String} :
    name? cs = some (name, rest) ↔ ∃ first tail part, cs = first :: tail
      ∧ isNameStart first = true ∧ Run isNamePart tail part rest
      ∧ name = String.ofList (first :: part) := by
  cases cs with
  | nil => simp [name?]
  | cons c cs =>
    rw [name?, Option.ite_none_right_eq_some]
    constructor
    · rintro ⟨hc, he⟩
      obtain ⟨rfl, rfl⟩ := Prod.mk.inj (Option.some.inj he)
      exact ⟨c, cs, _, rfl, hc, run_iff.2 ⟨rfl, rfl⟩, rfl⟩
    · rintro ⟨first, tail, part, he, hfirst, hrun, rfl⟩
      obtain ⟨rfl, rfl⟩ := List.cons_eq_cons.1 he
      obtain ⟨rfl, rfl⟩ := run_iff.1 hrun
      exact ⟨hfirst, rfl⟩

theorem eq_of_name? {name : String} (h : name? cs = some (name, rest)) :
    cs = name.toList ++ rest := by
  obtain ⟨first, tail, part, rfl, -, hrun, rfl⟩ := name?_eq_some_iff.1 h
  rw [String.toList_ofList, hrun.eq]
  rfl

theorem digits?_eq_some_iff {digits : List Char} :
    digits? cs = some (digits, rest) ↔ digits ≠ [] ∧ Run Char.isDigit cs digits rest := by
  simp only [digits?, Option.ite_none_left_eq_some, Option.some.injEq, Prod.mk.injEq, run_iff,
    List.isEmpty_iff]
  constructor
  · rintro ⟨hne, rfl, rfl⟩
    exact ⟨hne, rfl, rfl⟩
  · rintro ⟨hne, rfl, rfl⟩
    exact ⟨hne, rfl, rfl⟩

end SchemaLang.Source
