import SchemaLang.Proofs.Compile.Introductions
import SchemaLang.Proofs.Compile.Session

/-!
# Names of builtin types

A header of a struct, union or enum and a typedef are reported when they take the name of a builtin
type, and the type of a section has a bar in its name, which no builtin type has.  The header of an
action looks only at the names in use, so that an action may have the name of a builtin type; no
type refers to it then, since the builtin type is looked for first.

* `Compile.reports_builtin_iff`: which lines are reported for a name of a builtin type.
* `Types.Unshadowed`, `Compile.unshadowed_step`: where nothing is reported, only actions have such
  names.
* `builtin_names_of_actions`: both for lines and for sessions.
* `exists_builtin_action`: an action may have such a name.
-/

namespace SchemaLang

namespace Builtin

theorem ofName?_name (b : Builtin) : ofName? b.name = some b := by
  cases b <;> decide

theorem sectionTypeName_ne_name (a : Action) (s : Section) (b : Builtin) :
    Compile.sectionTypeName a s ≠ b.name := by
  intro h
  have hbar : '_' ∈ (Compile.sectionTypeName a s).toList := by
    simp [Compile.sectionTypeName]
  rw [h] at hbar
  exact absurd hbar (by cases b <;> decide)

end Builtin

namespace Compile

open Source (Line)

variable {pos : Position} {c : Compilation} {k : Cursor} {b : Builtin}

theorem isTaken_name (c : Compilation) (b : Builtin) : c.isTaken b.name = true := by
  rw [Compilation.isTaken, b.ofName?_name]
  rfl

/-- Only the header of an action looks no further than the names in use. -/
theorem reports_apply_iff {line : Line} {origin : Origin}
    (hi : introduced? c k line = some ⟨b.name, origin⟩) :
    Reports pos c (apply pos line c k).1
      ↔ line ≠ .action b.name ∨ c.types.contains b.name = true := by
  cases line with
  | action name =>
    obtain rfl : name = b.name := congrArg Introduction.name (Option.some.inj hi)
    refine reports_reportIf.trans ?_
    rw [or_iff_right (not_not.2 rfl)]
  | definition kind name bases =>
    obtain rfl : name = b.name := congrArg Introduction.name (Option.some.inj hi)
    refine iff_of_true (reports_reportIf.2 (isTaken_name c b)) (.inl ?_)
    exact Line.noConfusion
  | «section» s bases =>
    obtain ⟨a, -, ha⟩ := Option.map_eq_some_iff.1 hi
    exact absurd (congrArg Introduction.name ha) (b.sectionTypeName_ne_name a s)
  | typedef name expr =>
    obtain ⟨meaning, hm, ht⟩ := Option.map_eq_some_iff.1 hi
    obtain rfl : name = b.name := congrArg Introduction.name ht
    have hreports : Reports pos c (apply pos (.typedef b.name expr) c k).1 := by
      rw [apply]
      split
      · exact ⟨_, rfl⟩
      · exact reports_reportIf.2 (isTaken_name c b)
    exact iff_of_true hreports (.inl Line.noConfusion)
  | _ => simp [introduced?] at hi

theorem reports_builtin_iff {text : List Char} {origin : Origin}
    (hi : (Line.parse? (k.place c) text).bind (introduced? c k) = some ⟨b.name, origin⟩) :
    Reports pos c (step pos text c k).1
      ↔ Line.parse? (k.place c) text ≠ some (.action b.name)
        ∨ c.types.contains b.name = true := by
  obtain ⟨line, hl, hi⟩ := Option.bind_eq_some_iff.1 hi
  rw [step, hl]
  refine (reports_apply_iff hi).trans ?_
  rw [Ne, Ne, Option.some.injEq]

end Compile

/-! ## Where nothing is reported -/

/-- Nothing that a type can stand for has the name of a builtin type. -/
def Types.Unshadowed (types : Types) : Prop :=
  ∀ (b : Builtin) d, types.get? b.name = some d → ∃ a, d = .action a

theorem Types.Unshadowed.insert {types : Types} {key : String} {d : Definition}
    (h : types.Unshadowed) (hd : (∀ b : Builtin, key ≠ b.name) ∨ ∃ a, d = .action a) :
    Types.Unshadowed (types.insert key d) := by
  intro b d' hget
  rw [NameMap.get?_insert] at hget
  split at hget
  · next hkey =>
    obtain rfl := Option.some.inj hget
    exact hd.resolve_left fun hne => hne b hkey
  · exact h b d' hget

namespace Compile

variable {pos : Position} {c c' : Compilation} {k : Cursor}

theorem Effect.unshadowed {i : Option Introduction} (he : Effect pos c k i c')
    (h : c.types.Unshadowed) (hi : ∀ (b : Builtin) origin, i = some ⟨b.name, origin⟩ →
      ∃ a, c'.types.get? b.name = some (.action a)) : c'.types.Unshadowed := by
  cases he with
  | same ht => rwa [ht]
  | @adds _ key d d' hd ha ht =>
    rw [ht]
    refine h.insert ?_
    -- An item is added to a definition of the same kind.
    cases ha with
    | url a u => exact .inr ⟨_, rfl⟩
    | member s m =>
      refine .inl ?_
      rintro b rfl
      obtain ⟨a, ha⟩ := h b _ hd
      exact absurd ha Definition.noConfusion
    | value e v =>
      refine .inl ?_
      rintro b rfl
      obtain ⟨a, ha⟩ := h b _ hd
      exact absurd ha Definition.noConfusion
  | @header _ name d _ _ ht =>
    rw [ht]
    refine h.insert ?_
    by_cases hb : ∃ b : Builtin, name = b.name
    · obtain ⟨b, rfl⟩ := hb
      obtain ⟨a, ha⟩ := hi b .header rfl
      rw [ht, NameMap.get?_insert, if_pos rfl] at ha
      exact .inr ⟨a, Option.some.inj ha⟩
    · exact .inl (not_exists.1 hb)
  | @«section» _ key a s d _ _ _ _ ht =>
    rw [ht]
    have haction : Types.Unshadowed (c.types.insert key _) :=
      h.insert (.inr ⟨a.setType s (sectionTypeName a s), rfl⟩)
    exact haction.insert (.inl (Builtin.sectionTypeName_ne_name a s))

/-- A line that is not reported leaves the names of builtin types to actions. -/
theorem unshadowed_step {text : List Char} (h : c.types.Unshadowed)
    (hlog : (step pos text c k).1.log = []) : (step pos text c k).1.types.Unshadowed := by
  refine effect_step.unshadowed h ?_
  intro b origin hi
  have hreports := not_or.1 (mt (reports_builtin_iff hi).2 (not_reports hlog))
  have hl := not_not.1 hreports.1
  have hstep : step pos text c k = action pos b.name c k := by
    rw [step, hl]
    rfl
  rw [hstep, action, Compilation.types_define, NameMap.get?_insert, if_pos rfl]
  exact ⟨_, rfl⟩

end Compile

theorem Compilation.unshadowed_after (requests : List Request) :
    (after requests).log = [] → (after requests).types.Unshadowed := by
  refine after_induct (P := fun c => c.log = [] → c.types.Unshadowed) ?_ ?_ ?_ requests
  · intro _ b d hd
    exact absurd hd (by simp [show (∅ : Types).get? b.name = none from rfl])
  · intro pos text c k h hlog
    refine Compile.unshadowed_step (h (List.suffix_nil.1 ?_)) hlog
    exact hlog ▸ Compile.suffix_log_step
  · intro c h hlog
    exact h (log_finish_eq_nil_iff.1 hlog).2

/-- A line that takes the name of a builtin type is reported, unless it heads an action and the
name is not in use.  So in a session without diagnostics only actions have such names. -/
theorem builtin_names_of_actions (b : Builtin) :
    (∀ (pos : Position) (line : List Char) (c : Compilation) (k : Cursor) (origin : Origin),
        (Source.Line.parse? (k.place c) line).bind (Compile.introduced? c k)
            = some ⟨b.name, origin⟩ →
          (Compile.Reports pos c (Compile.step pos line c k).1
            ↔ Source.Line.parse? (k.place c) line ≠ some (.action b.name)
              ∨ c.types.contains b.name = true))
      ∧ ∀ requests, (Compilation.after requests).log = [] → ∀ d,
        (Compilation.after requests).types.get? b.name = some d → ∃ a, d = .action a := by
  refine ⟨?_, ?_⟩
  · intro pos line c k origin hi
    exact Compile.reports_builtin_iff hi
  · intro requests hlog d hd
    exact Compilation.unshadowed_after requests hlog b d hd

/-- An action named for a builtin type, with a member of this type. -/
def actionNamedInt : List Request := [.text "" "action int\n input\n  int int", .finish]

/-- A typedef that is reported, and a session in which an action goes unreported. -/
theorem builtin_names_of_actions_int :
    ((Source.Line.parse? (({} : Cursor).place {}) "typedef string int".toList).bind
          (Compile.introduced? {} {}) = some ⟨Builtin.int.name, .header⟩
        ∧ Compile.Reports ⟨"", 1⟩ {} (Compile.step ⟨"", 1⟩ "typedef string int".toList {} {}).1)
      ∧ ∃ d, (Compilation.after actionNamedInt).log = []
        ∧ (Compilation.after actionNamedInt).types.get? Builtin.int.name = some d
        ∧ ∃ a, d = .action a := by
  obtain ⟨hlines, hsessions⟩ := builtin_names_of_actions .int
  have hi : (Source.Line.parse? (({} : Cursor).place {}) "typedef string int".toList).bind
      (Compile.introduced? {} {}) = some ⟨Builtin.int.name, .header⟩ := by decide +kernel
  have hlog : (Compilation.after actionNamedInt).log = [] := by decide +kernel
  obtain ⟨d, hd⟩ := Option.isSome_iff_exists.1 (show ((Compilation.after actionNamedInt).types.get?
    Builtin.int.name).isSome = true by decide +kernel)
  refine ⟨⟨hi, ?_⟩, d, hlog, hd, hsessions actionNamedInt hlog d hd⟩
  exact (hlines ⟨"", 1⟩ _ {} {} _ hi).2 (.inl (by decide +kernel))

/-- The action takes the name, and nothing is reported. -/
theorem exists_builtin_action :
    ∃ types, compile "action int" = .ok types ∧ types.contains Builtin.int.name = true :=
  exists_ok_of_any (by decide +kernel)

end SchemaLang
