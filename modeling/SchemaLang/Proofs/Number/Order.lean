import SchemaLang.Model.Bound
import SchemaLang.Proofs.Number.Binary64

/-!
# The order of numbers

A finite number is a rational number, and finite numbers compare as the rational numbers that they
are: of two normalized magnitudes the one with the greater exponent is greater, whatever their
mantissas.

* `compares_parts`: exponents are compared first.
* `exists_compares`: finite numbers compare as rationals.
* `Comparison.holds_iff_relates`: so do the comparisons of bounds.
-/

namespace SchemaLang

namespace Number

open Float.Model (UnpackedFloat)
open Float.Model.UnpackedFloat (Sign)

/-- The rational number that a finite number is. -/
def rational? (x : Float) : Option ℚ :=
  match exact x with
  | .finite negative m e => some (if negative then -((m : ℚ) * 2 ^ e) else m * 2 ^ e)
  | _ => none

/-- What arithmetic sees of a finite number. -/
theorem exists_parts {x : Float} {a : ℚ} (h : rational? x = some a) :
    (∃ s, x.toModel.unpack = .zero s ∧ a = 0)
      ∨ ∃ negative m e, ∃ hm : Normalized m e,
        x.toModel.unpack = .finite (sign negative) m e hm.pos
          ∧ a = if negative then -((m : ℚ) * 2 ^ e) else m * 2 ^ e := by
  rw [rational?] at h
  split at h
  · next negative m e he =>
    obtain rfl := Option.some.inj h
    rcases Nat.eq_zero_or_pos m with rfl | hp
    · refine .inl ⟨sign negative, ?_, by simp⟩
      rw [eq_zero_of_exact he]
      cases negative <;> rfl
    · obtain ⟨hm, rfl⟩ := eq_ofParts he hp
      exact .inr ⟨negative, m, e, hm, unpack_ofParts hm, rfl⟩
  · simp at h

/-! ## Magnitudes -/

variable {m₁ m₂ : ℕ} {e₁ e₂ : ℤ}

theorem magnitude_pos {m : ℕ} {e : ℤ} (h : Normalized m e) : (0 : ℚ) < m * 2 ^ e :=
  mul_pos (by exact_mod_cast h.pos) (zpow_pos two_pos e)

/-- A number with a greater exponent has its first bit in place, which no smaller one reaches. -/
theorem magnitude_lt (h₁ : Normalized m₁ e₁) (h₂ : Normalized m₂ e₂) (he : e₁ < e₂) :
    (m₁ : ℚ) * 2 ^ e₁ < m₂ * 2 ^ e₂ := by
  have hfull : 2 ^ 52 ≤ m₂ := h₂.normal.resolve_right (h₁.least.trans_lt he).ne'
  have hlt : (m₁ : ℚ) < 2 ^ 53 := by exact_mod_cast h₁.lt
  have hge : (2 : ℚ) ^ 52 ≤ m₂ := by exact_mod_cast hfull
  calc (m₁ : ℚ) * 2 ^ e₁ < 2 ^ 53 * 2 ^ e₁ := mul_lt_mul_of_pos_right hlt (zpow_pos two_pos e₁)
    _ = 2 ^ 52 * 2 ^ (e₁ + 1) := by
      rw [zpow_add_one₀ two_ne_zero]
      ring
    _ ≤ m₂ * 2 ^ e₂ :=
      mul_le_mul hge (zpow_le_zpow_right₀ one_le_two he) (zpow_nonneg two_pos.le _)
        (Nat.cast_nonneg m₂)

theorem compares_parts (h₁ : Normalized m₁ e₁) (h₂ : Normalized m₂ e₂) :
    ((compare e₁ e₂).then (compare m₁ m₂)).Compares ((m₁ : ℚ) * 2 ^ e₁) (m₂ * 2 ^ e₂) := by
  rcases lt_trichotomy e₁ e₂ with he | rfl | he
  · rw [Int.compare_eq_lt.2 he]
    exact magnitude_lt h₁ h₂ he
  · have hpos : (0 : ℚ) < 2 ^ e₁ := zpow_pos two_pos e₁
    rw [Int.compare_eq_eq.2 rfl]
    rcases lt_trichotomy m₁ m₂ with hm | rfl | hm
    · rw [Nat.compare_eq_lt.2 hm]
      exact mul_lt_mul_of_pos_right (by exact_mod_cast hm) hpos
    · rw [Nat.compare_eq_eq.2 rfl]
      rfl
    · rw [Nat.compare_eq_gt.2 hm]
      exact mul_lt_mul_of_pos_right (by exact_mod_cast hm) hpos
  · rw [Int.compare_eq_gt.2 he]
    exact magnitude_lt h₂ h₁ he

theorem compares_neg {o : Ordering} {a b : ℚ} (h : o.Compares a b) : o.swap.Compares (-a) (-b) := by
  cases o with
  | lt => exact neg_lt_neg h
  | eq => exact congrArg Neg.neg h
  | gt => exact neg_lt_neg h

/-- Finite numbers compare as the rational numbers that they are. -/
theorem exists_compares {x y : Float} {a b : ℚ} (hx : rational? x = some a)
    (hy : rational? y = some b) :
    ∃ o, UnpackedFloat.compare x.toModel.unpack y.toModel.unpack = some o ∧ o.Compares a b := by
  obtain ⟨s₁, hux, rfl⟩ | ⟨n₁, m₁, e₁, h₁, hux, rfl⟩ := exists_parts hx
  · rw [hux]
    obtain ⟨s₂, huy, rfl⟩ | ⟨n₂, m₂, e₂, h₂, huy, rfl⟩ := exists_parts hy <;> rw [huy]
    · exact ⟨.eq, rfl, rfl⟩
    · have hpos := magnitude_pos h₂
      cases n₂ with
      | true => exact ⟨.gt, rfl, neg_neg_of_pos hpos⟩
      | false => exact ⟨.lt, rfl, hpos⟩
  · rw [hux]
    have hpos := magnitude_pos h₁
    obtain ⟨s₂, huy, rfl⟩ | ⟨n₂, m₂, e₂, h₂, huy, rfl⟩ := exists_parts hy <;> rw [huy]
    · cases n₁ with
      | true => exact ⟨.lt, rfl, neg_neg_of_pos hpos⟩
      | false => exact ⟨.gt, rfl, hpos⟩
    · have hpos₂ := magnitude_pos h₂
      have hparts := compares_parts h₁ h₂
      cases n₁ <;> cases n₂
      · exact ⟨_, rfl, hparts⟩
      · exact ⟨.gt, rfl, (neg_neg_of_pos hpos₂).trans hpos⟩
      · exact ⟨.lt, rfl, (neg_neg_of_pos hpos).trans hpos₂⟩
      · exact ⟨_, rfl, compares_neg hparts⟩

variable {x y : Float} {a b : ℚ}

theorem lt_iff_of_rational? (hx : rational? x = some a) (hy : rational? y = some b) :
    x < y ↔ a < b := by
  obtain ⟨o, hc, ho⟩ := exists_compares hx hy
  show decide (x.toModel < y.toModel) = true ↔ a < b
  rw [decide_eq_true_iff]
  show (UnpackedFloat.compare x.toModel.unpack y.toModel.unpack == some .lt) = true ↔ a < b
  rw [hc, beq_iff_eq, Option.some.injEq, ho.eq_lt]

theorem le_iff_of_rational? (hx : rational? x = some a) (hy : rational? y = some b) :
    x ≤ y ↔ a ≤ b := by
  obtain ⟨o, hc, ho⟩ := exists_compares hx hy
  show decide (x.toModel ≤ y.toModel) = true ↔ a ≤ b
  rw [decide_eq_true_iff]
  show (UnpackedFloat.compare x.toModel.unpack y.toModel.unpack).any Ordering.isLE = true ↔ a ≤ b
  rw [hc, Option.any_some, Ordering.isLE_iff_ne_gt, ← not_lt]
  exact not_congr ho.eq_gt

theorem beq_iff_of_rational? (hx : rational? x = some a) (hy : rational? y = some b) :
    (x == y) = true ↔ a = b := by
  obtain ⟨o, hc, ho⟩ := exists_compares hx hy
  show (UnpackedFloat.compare x.toModel.unpack y.toModel.unpack == some .eq) = true ↔ a = b
  rw [hc, beq_iff_eq, Option.some.injEq, ho.eq_eq]

end Number

namespace Comparison

open Number (rational?)

/-- The comparison in exact arithmetic. -/
def Relates (c : Comparison) (a b : ℚ) : Prop :=
  match c with
  | .eq => a = b
  | .lt => a < b
  | .lte => a ≤ b
  | .gt => b < a
  | .gte => b ≤ a

theorem holds_iff_relates (c : Comparison) {x y : Float} {a b : ℚ} (hx : rational? x = some a)
    (hy : rational? y = some b) : c.holds x y = true ↔ c.Relates a b := by
  cases c with
  | eq => exact Number.beq_iff_of_rational? hx hy
  | lt => exact decide_eq_true_iff.trans (Number.lt_iff_of_rational? hx hy)
  | lte => exact decide_eq_true_iff.trans (Number.le_iff_of_rational? hx hy)
  | gt => exact decide_eq_true_iff.trans (Number.lt_iff_of_rational? hy hx)
  | gte => exact decide_eq_true_iff.trans (Number.le_iff_of_rational? hy hx)

end Comparison

end SchemaLang
