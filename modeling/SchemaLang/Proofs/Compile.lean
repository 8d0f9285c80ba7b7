import Mathlib
import SchemaLang.Compile
import SchemaLang.Proofs.Outcome

/-!
# What a schema compiles to

* `Compile.get?_of_open`: what a block that is open defines is there.
* `Compilation.readLogical_induct`: what every line keeps.
* `compile_eq_ok_iff`: a schema compiles if nothing is reported about its lines and the linter finds
  nothing in what they define.
-/

namespace SchemaLang

/-! ## Definitions -/

theorem Definition.eq_of_enum? {d : Definition} {e : Enum} (h : d.enum? = some e) :
    d = .enum e := by
  cases d <;> simp [Definition.enum?] at h
  rw [h]

theorem Definition.eq_of_struct? {d : Definition} {s : Struct} (h : d.struct? = some s) :
    d = .struct s := by
  cases d <;> simp [Definition.struct?] at h
  rw [h]

namespace Compilation

@[simp] theorem types_report (c : Compilation) (pos : Position) (fault : Fault) :
    (c.report pos fault).types = c.types := rfl

@[simp] theorem types_reportIf (c : Compilation) (b : Bool) (pos : Position) (fault : Fault) :
    (c.reportIf b pos fault).types = c.types := by
  cases b <;> rfl

@[simp] theorem types_define (c : Compilation) (pos : Position) (name : String) (d : Definition) :
    (c.define pos name d).types = c.types.insert name d := rfl

@[simp] theorem types_update (c : Compilation) (name : String) (d : Definition) :
    (c.update name d).types = c.types.insert name d := rfl

@[simp] theorem types_locate (c : Compilation) (pos : Position) (owner item : String) :
    (c.locate pos owner item).types = c.types := rfl

end Compilation

namespace Compile

open Source (DefinitionKind)

variable {c : Compilation} {k : Cursor}

theorem name_setType (a : Action) (s : Section) (name : String) :
    (a.setType s name).name = a.name := by
  cases s <;> rfl

theorem name_newDefinition (kind : DefinitionKind) (name : String) (bases : Option (List String)) :
    (newDefinition kind name bases k).name = name := by
  cases kind <;> rfl

theorem name_sectionDefinition (s : Section) (name : String) (bases : Option (List String)) :
    (sectionDefinition s name bases).name = name := by
  cases s <;> rfl

theorem sectionDefinition_ne_action (s : Section) (name : String) (bases : Option (List String))
    (a : Action) : sectionDefinition s name bases ≠ .action a := by
  cases s <;> exact Definition.noConfusion

theorem action?_eq_some_iff {key : String} {a : Action} :
    c.action? key = some a ↔ c.types.get? key = some (.action a) := by
  rw [Compilation.action?]
  split
  · next hk => simp [hk]
  · next hk => simpa using hk a

/-- The action that is open. -/
theorem action?_of_open {key : String} {a : Action}
    (h : (k.block.action?.bind fun name => (c.action? name).map fun a => (name, a))
      = some (key, a)) : k.block.action? = some key ∧ c.action? key = some a := by
  obtain ⟨name, hb, h⟩ := Option.bind_eq_some_iff.1 h
  obtain ⟨_, ha, he⟩ := Option.map_eq_some_iff.1 h
  obtain ⟨rfl, rfl⟩ := Prod.mk.inj he
  exact ⟨hb, ha⟩

/-- What a block that is open defines is there. -/
theorem get?_of_open {α : Type} {o : Option String} {kind? : Definition → Option α}
    {f : α → Definition} {key : String} {a : α}
    (h : (o.bind fun key => ((c.types.get? key).bind kind?).map fun a => (key, a)) = some (key, a))
    (hf : ∀ d a, kind? d = some a → d = f a) : c.types.get? key = some (f a) := by
  obtain ⟨_, -, h⟩ := Option.bind_eq_some_iff.1 h
  obtain ⟨_, hk, he⟩ := Option.map_eq_some_iff.1 h
  obtain ⟨d, hd, hk⟩ := Option.bind_eq_some_iff.1 hk
  obtain ⟨rfl, rfl⟩ := Prod.ext_iff.1 he
  exact hf d _ hk ▸ hd

end Compile

namespace Compilation

/-- What every line keeps, all lines of an input keep. -/
theorem readLogical_induct {P : Compilation → Prop}
    (step : ∀ pos text c k, P c → P (Compile.step pos text c k).1) {file : String}
    {lines : List (Nat × List Char)} {c : Compilation} {k : Cursor} (h : P c) :
    P (c.readLogical file lines k).1 := by
  induction lines generalizing c k with
  | nil => exact h
  | cons line lines ih => exact ih (step _ _ c k h)

/-- Every diagnostic is an error. -/
theorem errors_eq_nil_iff {c : Compilation} : c.errors = [] ↔ c.log = [] := by
  rw [errors, List.map_eq_nil_iff, List.eq_nil_iff_forall_not_mem, List.eq_nil_iff_forall_not_mem]
  exact forall_congr' fun d => not_congr Diagnostic.mem_report

theorem log_finish_eq_nil_iff {c : Compilation} :
    c.finish.log = [] ↔ c.types.lint = [] ∧ c.log = [] := by
  show (c.types.lint.map c.located).reverse ++ c.log = [] ↔ _
  rw [List.append_eq_nil_iff, List.reverse_eq_nil_iff, List.map_eq_nil_iff]

end Compilation

theorem compile_eq_ok_iff {text : String} {types : Types} : compile text = .ok types ↔
    (Compilation.read "" text {}).types = types ∧ types.lint = []
      ∧ (Compilation.read "" text {}).log = [] := by
  let c := Compilation.read "" text {}
  have hc : c.finish.errors.isEmpty = true ↔ c.types.lint = [] ∧ c.log = [] := by
    rw [List.isEmpty_iff, Compilation.errors_eq_nil_iff, Compilation.log_finish_eq_nil_iff]
  show (if c.finish.errors.isEmpty then Except.ok c.types else .error c.finish.errors)
    = .ok types ↔ c.types = types ∧ types.lint = [] ∧ c.log = []
  by_cases h : c.finish.errors.isEmpty = true
  · rw [if_pos h, Except.ok.injEq]
    constructor
    · rintro rfl
      exact ⟨rfl, hc.1 h⟩
    · exact fun h => h.1
  · rw [if_neg h]
    constructor
    · exact fun h => absurd h (by simp)
    · rintro ⟨rfl, hl⟩
      exact absurd (hc.2 hl) h

end SchemaLang
