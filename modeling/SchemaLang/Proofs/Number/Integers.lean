import SchemaLang.Proofs.Number.Naturals
import SchemaLang.Proofs.Number.Order

/-!
# Integers as numbers

An integer is read as the number that its first 53 bits give, rounded by those that follow.
Rounding may take it to a number but never past one: with a mantissa of 53 bits, a number that is as
long as the integer is on the grid that the integer is rounded to, and one that is not on the grid
is below the first bit of the integer, which rounding keeps.

* `rational?_ofInt`: what an integer is read as.
* `rounded_le`, `le_rounded`: an integer stays on its side of each number.
-/

namespace SchemaLang.Number

/-! ## Quotients -/

theorem div_le_roundDiv (num den : ℕ) : num / den ≤ roundDiv num den := by
  rw [roundDiv]
  split
  · exact le_rfl
  · split <;> omega

/-- A quotient is rounded to no more than a whole number above it. -/
theorem roundDiv_le {num den k : ℕ} (hd : 0 < den) (h : num ≤ k * den) : roundDiv num den ≤ k := by
  have hsplit := Nat.div_add_mod' num den
  have hq : num / den ≤ k := Nat.div_le_of_le_mul (by rwa [mul_comm])
  have hr : 0 < num % den → num / den < k := fun hr =>
    lt_of_mul_lt_mul_right (by omega : num / den * den < k * den) (Nat.zero_le den)
  rw [roundDiv]
  split
  · exact hq
  · split <;> omega

/-! ## Rounding -/

/-- An integer rounded to 53 bits, a tie to the even mantissa. -/
def rounded (n : ℤ) : ℤ := n.sign * roundNat n.natAbs

theorem rounded_neg (n : ℤ) : rounded (-n) = -rounded n := by
  rw [rounded, rounded, Int.sign_neg, Int.natAbs_neg, neg_mul]

theorem rounded_natCast (n : ℕ) : rounded n = roundNat n := by
  rcases Nat.eq_zero_or_pos n with rfl | h0
  · rfl
  · rw [rounded, Int.sign_natCast_of_ne_zero h0.ne', one_mul, Int.natAbs_natCast]

theorem rounded_of_natAbs_le {n : ℤ} (h : n.natAbs ≤ 2 ^ 53) : rounded n = n := by
  have hround : roundNat n.natAbs = n.natAbs := by
    rcases Nat.lt_or_eq_of_le h with hlt | heq
    · exact roundNat_of_lt hlt
    · rw [heq]
      decide +kernel
  rw [rounded, hround]
  exact Int.sign_mul_natAbs n

theorem rational?_ofInt {n : ℤ} (hlow : -2 ^ 64 < n) (hhigh : n < 2 ^ 64) :
    rational? (Float.ofInt n) = some (rounded n : ℚ) := by
  cases n with
  | ofNat n =>
    rcases Nat.eq_zero_or_pos n with rfl | h0
    · have hz : exact (Float.ofInt 0) = .finite false 0 minExponent := by decide +kernel
      show rational? (Float.ofInt 0) = _
      rw [rational?, hz]
      simp [rounded]
    · obtain ⟨m, q, hm, hx, hv⟩ := exists_ofNat_eq h0 (by simpa using hhigh)
      show rational? (Float.ofNat n) = some ((rounded n : ℤ) : ℚ)
      rw [rational?, hx, exact_ofParts hm, rounded_natCast]
      exact congrArg some hv
  | negSucc n =>
    obtain ⟨m, q, hm, hx, hv⟩ := exists_ofNat_eq n.succ_pos (by omega)
    show rational? (-Float.ofNat n.succ) = some ((rounded (-(n.succ : ℤ)) : ℤ) : ℚ)
    rw [rational?, hx, neg_ofParts hm, exact_ofParts hm, rounded_neg, rounded_natCast, Int.cast_neg]
    exact congrArg (fun a => some (-a)) hv

/-! ## Numbers that stay on their side -/

/-- A rational number with the mantissa of a number. -/
def HasMantissa (a : ℚ) : Prop := ∃ m : ℕ, ∃ e : ℤ, m < 2 ^ 53 ∧ |a| = m * 2 ^ e

theorem HasMantissa.neg {a : ℚ} (h : HasMantissa a) : HasMantissa (-a) := by
  rwa [HasMantissa, abs_neg]

theorem hasMantissa_of_rational? {x : Float} {a : ℚ} (h : rational? x = some a) :
    HasMantissa a := by
  obtain ⟨_, -, rfl⟩ | ⟨negative, m, e, hm, -, rfl⟩ := exists_parts h
  · exact ⟨0, 0, by decide, by simp⟩
  · refine ⟨m, e, hm.lt, ?_⟩
    have hpos := abs_of_pos (magnitude_pos hm)
    cases negative with
    | true => exact (abs_neg _).trans hpos
    | false => exact hpos

/-- What is not on a grid has its first bit too far below to reach from there to the grid. -/
theorem HasMantissa.on_grid {a : ℚ} (h : HasMantissa a) (ha : 0 ≤ a) (k : ℕ) :
    (∃ b : ℕ, a = (b * 2 ^ k : ℕ)) ∨ a < (2 ^ (52 + k) : ℕ) := by
  obtain ⟨m, e, hm, he⟩ := h
  rw [abs_of_nonneg ha] at he
  subst he
  by_cases hk : (k : ℤ) ≤ e
  · obtain ⟨j, rfl⟩ := Int.le.dest hk
    refine .inl ⟨m * 2 ^ j, ?_⟩
    rw [add_comm, zpow_add₀ two_ne_zero, zpow_natCast, zpow_natCast]
    push_cast
    ring
  · right
    have hlt : (m : ℚ) < 2 ^ (53 : ℤ) := by exact_mod_cast hm
    calc (m : ℚ) * 2 ^ e < 2 ^ (53 : ℤ) * 2 ^ e := mul_lt_mul_of_pos_right hlt (zpow_pos two_pos e)
      _ = 2 ^ (53 + e) := (zpow_add₀ two_ne_zero _ _).symm
      _ ≤ 2 ^ ((52 + k : ℕ) : ℤ) := zpow_le_zpow_right₀ one_le_two (by push_cast; omega)
      _ = (2 ^ (52 + k) : ℕ) := by push_cast; rfl

/-- A number of more than 53 bits is rounded to `r` units of `2 ^ k`: not below a multiple that it
reaches, and not above one that it does not exceed. -/
structure RoundsTo (n k r : ℕ) : Prop where
  value : roundNat n = r * 2 ^ k
  first : 2 ^ (52 + k) ≤ n
  floor : ∀ b, b * 2 ^ k ≤ n → b ≤ r
  ceil : ∀ b, n ≤ b * 2 ^ k → r ≤ b

theorem exists_roundsTo {n : ℕ} (h : 2 ^ 53 ≤ n) : ∃ k r, RoundsTo n k r := by
  have hlog : 53 ≤ n.log2 := (Nat.le_log2 (by omega)).2 h
  obtain ⟨k, hk⟩ : ∃ k, n.log2 = 52 + k := ⟨n.log2 - 52, by omega⟩
  have hpos : 0 < 2 ^ k := Nat.two_pow_pos k
  refine ⟨k, roundDiv n (2 ^ k), roundNat_of_log2 hk, hk ▸ Nat.log2_self_le (by omega),
    fun b hb => ?_, fun b => roundDiv_le hpos⟩
  exact ((Nat.le_div_iff_mul_le hpos).2 hb).trans (div_le_roundDiv n _)

/-- Rounding keeps the first bit in its place or above it. -/
theorem RoundsTo.first_le {n k r : ℕ} (h : RoundsTo n k r) : 2 ^ (52 + k) ≤ r * 2 ^ k := by
  have hfirst := h.first
  rw [Nat.pow_add] at hfirst ⊢
  exact Nat.mul_le_mul_right _ (h.floor _ hfirst)

theorem roundNat_le {n : ℕ} {a : ℚ} (ha : HasMantissa a) (h : (n : ℚ) ≤ a) :
    (roundNat n : ℚ) ≤ a := by
  rcases Nat.lt_or_ge n (2 ^ 53) with hn | hn
  · rwa [roundNat_of_lt hn]
  · obtain ⟨k, r, hr⟩ := exists_roundsTo hn
    rw [hr.value]
    obtain ⟨b, rfl⟩ | hlt := ha.on_grid ((Nat.cast_nonneg n).trans h) k
    · exact_mod_cast Nat.mul_le_mul_right (2 ^ k) (hr.ceil b (by exact_mod_cast h))
    · have hn : n < 2 ^ (52 + k) := by exact_mod_cast h.trans_lt hlt
      exact absurd hr.first (Nat.not_le.2 hn)

theorem le_roundNat {n : ℕ} {a : ℚ} (ha : HasMantissa a) (h : a ≤ n) : a ≤ roundNat n := by
  rcases Nat.lt_or_ge n (2 ^ 53) with hn | hn
  · rwa [roundNat_of_lt hn]
  · obtain ⟨k, r, hr⟩ := exists_roundsTo hn
    rw [hr.value]
    rcases le_or_gt 0 a with ha0 | ha0
    · obtain ⟨b, rfl⟩ | hlt := ha.on_grid ha0 k
      · exact_mod_cast Nat.mul_le_mul_right (2 ^ k) (hr.floor b (by exact_mod_cast h))
      · exact hlt.le.trans (by exact_mod_cast hr.first_le)
    · exact ha0.le.trans (Nat.cast_nonneg _)

/-- An integer is not rounded past a number above it. -/
theorem rounded_le {n : ℤ} {a : ℚ} (ha : HasMantissa a) (h : (n : ℚ) ≤ a) :
    (rounded n : ℚ) ≤ a := by
  obtain ⟨n, rfl | rfl⟩ := n.eq_nat_or_neg
  · rw [rounded_natCast]
    exact_mod_cast roundNat_le ha (by exact_mod_cast h)
  · rw [rounded_neg, rounded_natCast]
    push_cast at h ⊢
    exact neg_le.1 (le_roundNat ha.neg (neg_le.1 h))

/-- An integer is not rounded past a number below it. -/
theorem le_rounded {n : ℤ} {a : ℚ} (ha : HasMantissa a) (h : a ≤ n) : a ≤ rounded n := by
  have hneg : (rounded (-n) : ℚ) ≤ -a := rounded_le ha.neg (by push_cast; exact neg_le_neg h)
  rw [rounded_neg] at hneg
  push_cast at hneg
  exact neg_le_neg_iff.1 hneg

end SchemaLang.Number
