import SchemaLang.Proofs.Compile.Canonical
import SchemaLang.Proofs.Validate.Portable
import SchemaLang.Validate.Model

/-!
# Type models that are written are valid

* `Types.ofValue_toJson_iff`: a model that is written is valid and comes back when JSON and integers
  of 64 bits can carry its bounds, and only then.
* `ofValue_toJson_iff_of_compile`: that is all that what a schema compiles to needs.
* `exists_invalid_compilation`: a bound on a length may be too great for that.
-/

namespace SchemaLang

/-- A model that is not empty, has no empty lists and passes the linter comes back from the JSON
that is written for it exactly when its bounds are portable. -/
theorem Types.ofValue_toJson_iff {types : Types} (h0 : 0 < types.size) (hf : types.Filled)
    (hl : types.lint = []) :
    Types.ofValue (.ofJson types.toJson) = .ok types ↔ types.Carries Attributes.Portable := by
  constructor
  · intro h
    cases hv : Bootstrap.types.validateAs "Types" (.ofJson types.toJson) with
    | error failure => simp [ofValue, readShaped, hv, bind, Except.bind] at h
    | ok w =>
      exact Bootstrap.carries_of_readable_types ⟨w, (Types.validateAs_eq_ok_iff.1 hv).2⟩
  · intro h
    obtain ⟨w, hr, hw⟩ := Bootstrap.exists_reads_types h0 hf h
    have hv : Bootstrap.types.validateAs "Types" (.ofJson types.toJson) = .ok w :=
      Types.validateAs_eq_ok_iff.2 ⟨rfl, hr⟩
    have hs : readShaped "Types" Types.ofJson? (.ofJson types.toJson) = .ok types := by
      rw [readShaped, hv]
      simp only [hw, Option.elim_some]
    rw [Types.ofValue, hs]
    show types.checked = .ok types
    rw [Types.checked, hl]

/-- What a schema compiles to is written as JSON that is valid and read as the same model exactly
when JSON and integers of 64 bits can carry its bounds. -/
theorem ofValue_toJson_iff_of_compile {text : String} {types : Types}
    (h : compile text = .ok types) (h0 : 0 < types.size) :
    Types.ofValue (.ofJson types.toJson) = .ok types ↔ types.Carries Attributes.Portable := by
  obtain ⟨hf, hl⟩ := filled_and_lint_of_compile h
  exact Types.ofValue_toJson_iff h0 hf hl

/-- A schema with bounds on numbers and on lengths. -/
def sampleSchema : String :=
  "enum Color\n red\nstruct Base\nstruct Sum (Base)\n Color : int(>= 0.5)\x7blen <= 9\x7d counts"

theorem ofValue_toJson_iff_of_compile_sample : ∃ types, compile sampleSchema = .ok types
      ∧ 0 < types.size ∧ types.Carries Attributes.Portable
      ∧ Types.ofValue (.ofJson types.toJson) = .ok types := by
  obtain ⟨types, hc, h⟩ := exists_ok_of_any (x := compile sampleSchema) (p := fun types =>
    decide (0 < types.size ∧ types.Carries Attributes.Portable)) (by decide +kernel)
  obtain ⟨h0, hp⟩ := of_decide_eq_true h
  exact ⟨types, hc, h0, hp, (ofValue_toJson_iff_of_compile hc h0).2 hp⟩

/-- A bound on a length that is no integer of 64 bits with a sign is no valid bound. -/
theorem exists_invalid_compilation : ∃ text types failure, compile text = .ok types
    ∧ 0 < types.size ∧ Types.ofValue (.ofJson types.toJson) = .error failure
    ∧ failure.member? = some "T.typedef.attr.lenLT" := by
  let text := "typedef string(len < 9223372036854775808) T"
  obtain ⟨types, hc, h⟩ := exists_ok_of_any (x := compile text) (p := fun types =>
    decide (0 < types.size) && match Types.ofValue (.ofJson types.toJson) with
      | .ok _ => false
      | .error failure => failure.member? == some "T.typedef.attr.lenLT") (by decide +kernel)
  obtain ⟨h0, hv⟩ := Bool.and_eq_true_iff.1 h
  split at hv
  · simp at hv
  · next failure hf => exact ⟨text, types, failure, hc, of_decide_eq_true h0, hf, beq_iff_eq.1 hv⟩

end SchemaLang
