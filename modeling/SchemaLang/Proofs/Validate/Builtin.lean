import SchemaLang.Validate.Builtin

/-!
# The values of builtin types

What a builtin type answers is one of its own values, and it takes its own values as they are.
-/

namespace SchemaLang.Builtin

/-- The values of a builtin type; `any` and `object` have all. -/
def Holds : Builtin → Value → Prop
  | .any, _ => True
  | .object, _ => True
  | .bool, v => ∃ b, v = .bool b
  | .date, v => ∃ d, v = .date d
  | .datetime, v => ∃ m, v = .moment m
  | .float, v => ∃ x, v = .float x
  | .int, v => ∃ n, v = .int n
  | .string, v => ∃ s, v = .string s
  | .uuid, v => ∃ u, v = .uuid u

theorem holds_of_convert? {b : Builtin} {v w : Value} (h : b.convert? v = some w) : b.Holds w := by
  cases b with
  | any => exact trivial
  | object => exact trivial
  | bool =>
    cases v <;> simp only [convert?, Option.some.injEq, reduceCtorEq] at h
    · exact ⟨_, h.symm⟩
    · split at h
      · exact ⟨_, (Option.some.inj h).symm⟩
      · split at h
        · exact ⟨_, (Option.some.inj h).symm⟩
        · simp at h
  | string =>
    cases v <;> simp only [convert?, Option.some.injEq, reduceCtorEq] at h
    exact ⟨_, h.symm⟩
  | _ =>
    cases v <;> simp only [convert?, Option.map_eq_some_iff, Option.some.injEq, reduceCtorEq] at h
    all_goals first
      | exact ⟨_, h.symm⟩
      | exact h.imp fun _ hx => hx.2.symm

theorem convert?_of_holds {b : Builtin} {v : Value} (h : b.Holds v) : b.convert? v = some v := by
  cases b with
  | any => rfl
  | object => rfl
  | _ => obtain ⟨x, rfl⟩ := h; rfl

theorem eq_null_of_convert? {b : Builtin} {v : Value} (h : b.convert? v = some .null) :
    v = .null := by
  have hn := holds_of_convert? h
  cases b with
  | any => exact Option.some.inj h
  | object => exact Option.some.inj h
  | _ => obtain ⟨x, hx⟩ := hn; exact absurd hx (by simp)

theorem eq_string_of_convert? {b : Builtin} {v : Value} {s : String}
    (h : b.convert? v = some (.string s)) : v = .string s := by
  cases b with
  | any => exact Option.some.inj h
  | object => exact Option.some.inj h
  | string => cases v <;> simp [convert?] at h ⊢; exact h
  | _ =>
    obtain ⟨x, hx⟩ := holds_of_convert? h
    exact absurd hx (by simp)

theorem convert?_null {b : Builtin} {w : Value} (h : b.convert? .null = some w) : w = .null := by
  cases b with
  | any => exact (Option.some.inj h).symm
  | object => exact (Option.some.inj h).symm
  | _ => simp [convert?] at h

/-- Nothing but a text is read from the text `null`. -/
theorem eq_of_convert?_nullText {b : Builtin} {w : Value}
    (h : b.convert? (.string "null") = some w) : w = .string "null" := by
  cases b with
  | any | object | string => exact (Option.some.inj h).symm
  | _ =>
    have hn : (none : Option Value) = some w := h
    simp at hn

end SchemaLang.Builtin
