import SchemaLang.Validate.Attributes

/-!
# What attributes ask of a value

`Attributes.Meets` says it bound by bound, without the order in which bounds are checked.

* `brokenBound?_eq_none_iff`: no bound is broken exactly when all are met.
-/

namespace SchemaLang

/-- A value has the measure of every bound that is set, and compares with it as the bound says. -/
structure Attributes.Meets (a : Attributes) (v : Value) : Prop where
  number : ∀ {c : Comparison} {x : Float}, a.number.get? c = some x →
    ∃ y, v.number? = some y ∧ c.holds y x = true
  length : ∀ {c : Comparison} {n : UInt64}, a.length.get? c = some n →
    ∃ l, v.length? = some l ∧ c.holds (Float.ofNat l) (Float.ofNat n.toNat) = true

theorem Attributes.mem_bounds {a : Attributes} {b : Bound} :
    b ∈ a.bounds ↔ (∃ c x, a.number.get? c = some x ∧ b = ⟨.number, c, x⟩)
      ∨ ∃ c n, a.length.get? c = some n ∧ b = ⟨.length, c, Float.ofNat n.toNat⟩ := by
  simp only [bounds, List.mem_append, List.mem_map, Prod.exists, Bounds.mem_toList]
  constructor
  · rintro (⟨c, x, h, rfl⟩ | ⟨c, n, h, rfl⟩)
    · exact .inl ⟨c, x, h, rfl⟩
    · exact .inr ⟨c, n, h, rfl⟩
  · rintro (⟨c, x, h, rfl⟩ | ⟨c, n, h, rfl⟩)
    · exact .inl ⟨c, x, h, rfl⟩
    · exact .inr ⟨c, n, h, rfl⟩

theorem Bound.accepts_iff {b : Bound} {v : Value} :
    b.accepts v = true ↔ ∃ y, v.measured? b.measure = some y ∧ b.holds y = true := by
  rw [accepts, Option.any_eq_true]

theorem Attributes.meets_iff {a : Attributes} {v : Value} :
    a.Meets v ↔ ∀ b ∈ a.bounds, b.accepts v = true := by
  constructor
  · intro h b hb
    rw [Bound.accepts_iff]
    rcases mem_bounds.1 hb with ⟨c, x, hc, rfl⟩ | ⟨c, n, hc, rfl⟩
    · exact h.number hc
    · obtain ⟨l, hl, hh⟩ := h.length hc
      exact ⟨Float.ofNat l, by simp [Value.measured?, hl], hh⟩
  · intro h
    refine ⟨fun hc => ?_, fun hc => ?_⟩
    · exact Bound.accepts_iff.1 (h _ (mem_bounds.2 (.inl ⟨_, _, hc, rfl⟩)))
    · obtain ⟨y, hy, hh⟩ := Bound.accepts_iff.1 (h _ (mem_bounds.2 (.inr ⟨_, _, hc, rfl⟩)))
      obtain ⟨l, hl, rfl⟩ := Option.map_eq_some_iff.1 hy
      exact ⟨l, hl, hh⟩

theorem brokenBound?_eq_none_iff {attr : Option Attributes} {v : Value} :
    brokenBound? attr v = none ↔ ∀ a, attr = some a → a.Meets v := by
  cases attr with
  | none => simp [brokenBound?]
  | some a => simp [brokenBound?, Attributes.meets_iff]

end SchemaLang
