import SchemaLang.Proofs.Number.Scientific

/-!
# Naturals as numbers

A natural number that is not zero is read as a number above zero: rounding leaves it a mantissa of
53 bits, whatever its size, and where there is no number with its exponent it becomes infinity.

* `exists_roundWithAccuracy_eq`: what a long mantissa is rounded to.
* `zero_lt_ofNat`, `zero_le_ofNat`, `nonneg_of_zero_le_ofInt`: the order to zero is kept.
* `exists_integral?_ofNat`: naturals of 64 bits are not rounded to such of 63.
-/

namespace SchemaLang.Number

open Float.Model (Format UnpackedFloat totalExponent)
open Float.Model.UnpackedFloat

theorem mantissa_shiftRight (em : ExtendedMantissa) (n : ℕ) :
    (em >>> n).mantissa = em.mantissa / 2 ^ n := by
  induction n with
  | zero => rw [Nat.pow_zero, Nat.div_one]; rfl
  | succ n ih =>
    have hs : em >>> (n + 1) = (em >>> n).shiftRightOne := rfl
    rw [hs, Nat.pow_succ, ← Nat.div_div_eq_div_mul, ← ih]
    rfl

theorem roundedMantissa_bounds (em : ExtendedMantissa) :
    em.mantissa ≤ em.roundedMantissa ∧ em.roundedMantissa ≤ em.mantissa + 1 := by
  obtain ⟨k, r, s⟩ := em
  cases r with
  | false =>
    have hr : ExtendedMantissa.roundedMantissa ⟨k, false, s⟩ = k := by cases s <;> rfl
    rw [hr]
    exact ⟨le_rfl, Nat.le_succ k⟩
  | true =>
    cases s with
    | true => exact ⟨Nat.le_succ k, le_rfl⟩
    | false =>
      show k ≤ k + k % 2 ∧ k + k % 2 ≤ k + 1
      omega

/-- A mantissa of at least 53 bits is rounded to one of just 53, in the place of its first bit or
one place above. -/
theorem exists_roundWithAccuracy_eq {s : Sign} {M : ℕ} {E : ℤ} (hM : 2 ^ 52 ≤ M)
    (hE : minExponent ≤ M.log2 + E - 52) :
    ∃ m e, ∃ h : 0 < m, roundWithAccuracy Format.binary64 s M E .exact = .finite s m e h
      ∧ 2 ^ 52 ≤ m ∧ m < 2 ^ 53 ∧ M.log2 + E - 52 ≤ e ∧ e ≤ M.log2 + E - 51 := by
  have hM0 : M ≠ 0 := by omega
  have hlog : 52 ≤ M.log2 := (Nat.le_log2 hM0).2 hM
  have ht : target M E = E + (M.log2 - 52 : ℕ) := by
    rw [target_eq]
    omega
  have hk : (target M E - E).toNat = M.log2 - 52 := by omega
  obtain ⟨k, hMk⟩ : ∃ k, M.log2 = 52 + k := ⟨M.log2 - 52, by omega⟩
  rw [hMk, Nat.add_sub_cancel_left] at ht hk
  let em := ExtendedMantissa.ofMantissaAndAccuracy M .exact >>> k
  have hshift : shiftToTargetExponent Format.binary64 M E .exact = (em, E + k) := by
    show (ExtendedMantissa.ofMantissaAndAccuracy M .exact >>> (target M E - E).toNat,
      E + ((target M E - E).toNat : ℤ)) = _
    rw [hk]
  have hem : em.mantissa = M / 2 ^ k := mantissa_shiftRight _ k
  have hge : 2 ^ 52 ≤ M / 2 ^ k := by
    rw [Nat.le_div_iff_mul_le (Nat.two_pow_pos k), ← Nat.pow_add, ← hMk]
    exact Nat.log2_self_le hM0
  have hlt : M / 2 ^ k < 2 ^ 53 := by
    rw [Nat.div_lt_iff_lt_mul (Nat.two_pow_pos k), ← Nat.pow_add,
      show 53 + k = M.log2 + 1 by omega]
    exact Nat.lt_log2_self
  obtain ⟨hlow, hhigh⟩ := roundedMantissa_bounds em
  rw [hem] at hlow hhigh
  rw [roundWithAccuracy, hshift]
  generalize hem' : em.roundedMantissa = r at hlow hhigh
  rcases Nat.lt_or_eq_of_le (show r ≤ 2 ^ 53 by omega) with hr | rfl
  · have hlogr : r.log2 = 52 := (Nat.log2_eq_iff (by omega)).2 ⟨by omega, hr⟩
    have htr : target r (E + k) = E + k := by
      rw [target_eq, hlogr]
      omega
    have hr0 : r ≠ 0 := by omega
    refine ⟨r, E + k, by omega, ?_, by omega, hr, by omega, by omega⟩
    simp only [hem', shiftToTargetExponent_of_target htr, dif_neg hr0]
  · -- rounding has made the mantissa too long
    refine ⟨2 ^ 52, E + k + 1, by omega, ?_, le_rfl, by omega, by omega, by omega⟩
    have hover := shiftToTargetExponent_of_overflow (e := E + k + 1) (by omega)
    rw [Int.add_sub_cancel] at hover
    simp only [hem', hover]
    rw [dif_neg (by norm_num)]

/-- What is a number above zero to arithmetic. -/
def IsPositive : UnpackedFloat → Prop
  | .finite .positive _ _ _ | .infinity .positive => True
  | _ => False

/-- A mantissa of 53 bits is packed as a number above zero. -/
theorem isPositive_unpack_pack {m : ℕ} {e : ℤ} (h : 0 < m) (hge : 2 ^ 52 ≤ m) (hlt : m < 2 ^ 53)
    (he : minExponent ≤ e) :
    IsPositive (Float.Model.pack (.finite .positive m e h)).unpack := by
  by_cases hmax : e ≤ 971
  · have hm : Normalized m e := ⟨h, hlt, he, hmax, .inl hge⟩
    rw [unpack_pack hm]
    trivial
  · have hbias : 2 ^ Format.binary64.exponentBits
        ≤ (e + Format.binary64.exponentBias + Format.binary64.mantissaBitsWithoutImplicit).toNat
          + 1 := by
      show 2 ^ 11 ≤ (e + 1023 + 52).toNat + 1
      omega
    have hinf : UnpackedFloat.pack Format.binary64 (.finite .positive m e h)
        = packedInfinity Format.binary64 .positive := by
      rw [UnpackedFloat.pack]
      exact if_pos hbias
    show IsPositive (UnpackedFloat.unpack Format.binary64
      (UnpackedFloat.pack Format.binary64 (.finite .positive m e h)))
    rw [hinf]
    trivial

/-- What is read in exact arithmetic is rounded at once. -/
theorem ofScientific_whole {n : ℕ} (h0 : 0 < n) : UnpackedFloat.ofScientific Format.binary64 n 0
    = roundWithAccuracy Format.binary64 .positive (n <<< 53 * 10 ^ 0) (-53 + 0) .exact := by
  have h1 : ¬(0 : ℤ) > 2 ^ Format.binary64.exponentBits := by
    show ¬(0 : ℤ) > 2 ^ 11
    omega
  have h2 : ¬(0 : ℤ) < -((2 ^ Format.binary64.exponentBits : ℤ) + n.log2) := by
    show ¬(0 : ℤ) < -((2 ^ 11 : ℤ) + n.log2)
    omega
  rw [UnpackedFloat.ofScientific, dif_neg (Nat.ne_of_gt h0), if_neg h1, if_neg h2, if_pos le_rfl]
  rfl

theorem log2_shiftLeft {n : ℕ} (h0 : n ≠ 0) (k : ℕ) : (n <<< k).log2 = n.log2 + k := by
  induction k with
  | zero => rw [Nat.shiftLeft_zero, Nat.add_zero]
  | succ k ih =>
    have hk : n <<< k ≠ 0 := by
      rw [Nat.shiftLeft_eq]
      exact Nat.mul_ne_zero h0 (Nat.two_pow_pos k).ne'
    rw [Nat.shiftLeft_succ, Nat.log2_two_mul hk, ih, Nat.add_assoc]

theorem exists_toModel_ofNat {n : ℕ} (hn : 2 ^ 53 ≤ n) :
    ∃ m e, ∃ h : 0 < m, (Float.ofNat n).toModel = Float.Model.pack (.finite .positive m e h)
      ∧ 2 ^ 52 ≤ m ∧ m < 2 ^ 53 ∧ (n.log2 : ℤ) - 52 ≤ e ∧ e ≤ (n.log2 : ℤ) - 51 := by
  have h0 : 0 < n := by omega
  have hM : n <<< 53 * 10 ^ 0 = n <<< 53 := by rw [Nat.pow_zero, Nat.mul_one]
  have hlog : (n <<< 53).log2 = n.log2 + 53 := log2_shiftLeft h0.ne' 53
  have hge : 2 ^ 52 ≤ n <<< 53 := by
    rw [Nat.shiftLeft_eq]
    omega
  have hmin : minExponent ≤ (n <<< 53).log2 + (-53 + 0) - 52 := by
    rw [minExponent]
    omega
  obtain ⟨m, e, h, hr, hm, hlt, hlow, hhigh⟩ :=
    exists_roundWithAccuracy_eq (s := .positive) hge hmin
  rw [hlog] at hlow hhigh
  refine ⟨m, e, h, ?_, hm, hlt, by omega, by omega⟩
  have hslow : ¬(n < 2 ^ 53 ∧ 0 ≤ 22) := by omega
  rw [← hr, ← hM, ← ofScientific_whole h0]
  show (Float.ofScientific n false 0).toModel = _
  rw [Float.ofScientific, dif_neg hslow]
  rfl

theorem isPositive_unpack_ofNat {n : ℕ} (h0 : 0 < n) :
    IsPositive (Float.ofNat n).toModel.unpack := by
  by_cases hn : n < 2 ^ 53
  · obtain ⟨m, q, hm, hx, -⟩ := exists_ofNat_eq h0 (by omega)
    rw [hx, unpack_ofParts hm]
    trivial
  · obtain ⟨m, e, h, hx, hm, hlt, hlow, -⟩ := exists_toModel_ofNat (Nat.not_lt.1 hn)
    rw [hx]
    refine isPositive_unpack_pack h hm hlt ?_
    rw [minExponent]
    omega

theorem compare_zero {x : UnpackedFloat} (h : IsPositive x) :
    UnpackedFloat.compare (.zero .positive) x = some .lt := by
  match x, h with
  | .finite .positive _ _ _, _ => rfl
  | .infinity .positive, _ => rfl

theorem zero_lt_ofNat {n : ℕ} (h0 : 0 < n) : Float.ofNat 0 < Float.ofNat n := by
  have hz : (Float.ofNat 0).toModel.unpack = .zero .positive := rfl
  have hlt : (Float.ofNat 0).toModel.unpack.lt (Float.ofNat n).toModel.unpack = true := by
    rw [hz, UnpackedFloat.lt, compare_zero (isPositive_unpack_ofNat h0)]
    rfl
  exact decide_eq_true hlt

theorem zero_le_ofNat (n : ℕ) : (0.0 : Float) ≤ Float.ofNat n := by
  have hz : (0.0 : Float).toModel.unpack = .zero .positive := rfl
  have hle : (0.0 : Float).toModel.unpack.le (Float.ofNat n).toModel.unpack = true := by
    rcases Nat.eq_zero_or_pos n with rfl | h0
    · rfl
    · rw [hz, UnpackedFloat.le, compare_zero (isPositive_unpack_ofNat h0)]
      rfl
  exact decide_eq_true hle

/-- Integers below zero are read as numbers below zero. -/
theorem nonneg_of_zero_le_ofInt {n : ℤ} (hlow : -2 ^ 64 < n) (h : (0.0 : Float) ≤ Float.ofInt n) :
    0 ≤ n := by
  cases n with
  | ofNat n => exact Int.natCast_nonneg n
  | negSucc n =>
    obtain ⟨m, q, hm, hx, -⟩ := exists_ofNat_eq n.succ_pos (by omega)
    have hz : (0.0 : Float).toModel.unpack = .zero .positive := rfl
    have hneg : Float.ofInt (Int.negSucc n) = ofParts true m q hm.pos := by
      show -Float.ofNat n.succ = _
      rw [hx, neg_ofParts hm]
    have hle : (0.0 : Float).toModel.unpack.le (Float.ofInt (Int.negSucc n)).toModel.unpack
        = false := by
      rw [hz, hneg, unpack_ofParts hm]
      rfl
    have ht : (0.0 : Float).toModel.unpack.le (Float.ofInt (Int.negSucc n)).toModel.unpack
        = true := of_decide_eq_true h
    rw [hle] at ht
    simp at ht

/-! ## Integers that numbers are -/

theorem exact_ofParts {negative : Bool} {m : ℕ} {e : ℤ} (h : Normalized m e) :
    exact (ofParts negative m e h.pos) = .finite negative m e := by
  have hf : (ofParts negative m e h.pos).isFinite = true := isFinite_ofParts h
  have hu : (ofParts negative m e h.pos).toModel.unpack = .finite (sign negative) m e h.pos :=
    unpack_ofParts h
  obtain ⟨negative', m', e', he⟩ := exists_exact hf
  rcases Nat.eq_zero_or_pos m' with rfl | hp
  · rw [eq_zero_of_exact he] at hu
    cases negative' <;> cases hu
  · obtain ⟨hn, hx⟩ := eq_ofParts he hp
    rw [hx, unpack_ofParts hn] at hu
    obtain ⟨hs, rfl, rfl⟩ := UnpackedFloat.finite.inj hu
    rw [he]
    cases negative <;> cases negative' <;> first | rfl | cases hs

/-- A number that has no fraction because its exponent is not negative. -/
theorem integral?_ofParts {m k : ℕ} (h : Normalized m k) :
    integral? (ofParts false m k h.pos) = some ((m * 2 ^ k : ℕ) : ℤ) := by
  rw [integral?, exact_ofParts h]
  simp [Nat.mod_one]

/-- Rounding takes no integer of more than 63 bits below the greatest with 63 bits. -/
theorem exists_integral?_ofNat {n : ℕ} (hn : 2 ^ 63 ≤ n) (hl : n < 2 ^ 64) :
    ∃ i : ℕ, integral? (Float.ofNat n) = some (i : ℤ) ∧ 2 ^ 63 ≤ i := by
  have hlog : n.log2 = 63 := (Nat.log2_eq_iff (by omega)).2 ⟨hn, hl⟩
  obtain ⟨m, e, h, hx, hm, hlt, hlow, hhigh⟩ := exists_toModel_ofNat (n := n) (by omega)
  rw [hlog] at hlow hhigh
  obtain ⟨k, rfl⟩ : ∃ k : ℕ, e = k := ⟨e.toNat, by omega⟩
  have hnorm : Normalized m k := ⟨h, hlt, by rw [minExponent]; omega, by omega, .inl hm⟩
  have he : Float.ofNat n = ofParts false m k hnorm.pos := congrArg Float.ofModel hx
  refine ⟨m * 2 ^ k, by rw [he, integral?_ofParts hnorm], ?_⟩
  calc 2 ^ 63 = 2 ^ 52 * 2 ^ 11 := by norm_num
    _ ≤ m * 2 ^ k := Nat.mul_le_mul hm (Nat.pow_le_pow_right (by norm_num) (by omega))

end SchemaLang.Number
