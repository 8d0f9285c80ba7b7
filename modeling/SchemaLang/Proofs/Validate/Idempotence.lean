import SchemaLang.Proofs.Validate.Equivalence
import SchemaLang.Proofs.Validate.Restating

/-!
# Validation is idempotent

A value restates itself, so what has been read is read as itself.

* `restating_eq`: equality is a form of restating.
* `validateAs_idempotent`: a validated value is validated as the same value.
-/

namespace SchemaLang

namespace Validate

theorem restating_eq : Restating (fun _ => True) (fun u w => u = w) (fun _ => True) where
  items _ _ _ _ := trivial
  entries _ _ _ _ := trivial
  null := by
    rintro u rfl
    exact .inl rfl
  string h := h
  array := by
    rintro u ws rfl
    exact ⟨ws, rfl, List.forall₂_same.2 fun _ _ => rfl⟩
  object := by
    rintro u entries rfl
    exact ⟨entries, rfl, List.forall₂_same.2 fun _ _ => ⟨.inl rfl, rfl⟩⟩
  leaf := by
    rintro b v u w - - h rfl
    exact Builtin.convert?_of_holds (Builtin.holds_of_convert? h)

end Validate

theorem validateAs_idempotent {types : Types} {name : String} {v w : Value}
    (hl : types.lint = []) (h : types.validateAs name v = .ok w) :
    types.validateAs name w = .ok w := by
  obtain ⟨hc, hr⟩ := Types.validateAs_eq_ok_iff.1 h
  refine Types.validateAs_eq_ok_iff.2 ⟨hc, ?_⟩
  exact hr.restate Validate.restating_eq (Types.sound_of_lint hl) trivial (fun _ _ => trivial)
    trivial rfl

theorem validateAs_idempotent_sample :
    Types.sample.lint = []
      ∧ Types.sample.validateAs "Tally" Value.sample = .ok Value.sampleRead
      ∧ Types.sample.validateAs "Tally" Value.sampleRead = .ok Value.sampleRead :=
  ⟨Types.lint_sample, validateAs_sample, validateAs_idempotent Types.lint_sample validateAs_sample⟩

end SchemaLang
