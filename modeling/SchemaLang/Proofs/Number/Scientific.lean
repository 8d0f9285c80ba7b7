import SchemaLang.Number.Fixed
import SchemaLang.Number.Reading
import SchemaLang.Proofs.Number.Rounding

/-!
# Reading decimals

A decimal is read as the number that it is nearest to, whichever way its digits are scaled: small
ones are divided or multiplied by a power of ten that is itself a number, the others in exact
arithmetic.

* `mul_eq`, `div_eq`: products and quotients are the numbers that their values belong to.
* `nearest_eq`: so are decimals.
* `exists_ofNat_eq`, `isFinite_ofInt`: integers of 64 bits are rounded to 53, as finite numbers.
-/

namespace SchemaLang.Number

open Float.Model (Format UnpackedFloat totalExponent)
open Float.Model.UnpackedFloat

theorem mul_eq {s₁ s₂ : Sign} {m₁ m₂ m : ℕ} {e₁ e₂ e : ℤ} (h₁ : 0 < m₁) (h₂ : 0 < m₂)
    (hE : e₁ + e₂ ≤ target (m₁ * m₂) (e₁ + e₂)) (hm : Normalized m e)
    (hn : Nearest m (downTo m e) ((m₁ * m₂ : ℕ) * 2 ^ (e₁ + e₂ - e))) :
    UnpackedFloat.mul Format.binary64 (.finite s₁ m₁ e₁ h₁) (.finite s₂ m₂ e₂ h₂)
      = .finite (s₁ * s₂) m e hm.pos :=
  roundWithAccuracy_eq (represents_exact _) hE hm hn

theorem represents_of_bits {k : ℕ} {r s : Bool} {f : ℚ} (h0 : 0 < f) (h1 : f < 1)
    (hr : r = true ↔ 1 / 2 ≤ f) (hs : s = true ↔ f ≠ 1 / 2) : Represents ⟨k, r, s⟩ (k + f) where
  low := by
    show (k : ℚ) ≤ k + f
    linarith
  high := by
    show (k : ℚ) + f < k + 1
    linarith
  round := by
    rw [hr]
    show _ ↔ (k : ℚ) + 1 / 2 ≤ k + f
    rw [add_le_add_iff_left]
  sticky := by
    rw [hs]
    show _ ↔ (k : ℚ) + f ≠ k ∧ (k : ℚ) + f ≠ k + 1 / 2
    rw [Ne, Ne, Ne, add_right_inj, add_eq_left]
    exact ⟨fun h => ⟨h0.ne', h⟩, And.right⟩

/-- A quotient is represented by its whole part and by how the rest compares with a half. -/
theorem represents_div (a : ℕ) {b : ℕ} (hb : 0 < b) :
    Represents (.ofMantissaAndAccuracy (a / b) (accuracyOfFraction (a % b) b)) (a / b : ℚ) := by
  have hbq : (0 : ℚ) < b := by exact_mod_cast hb
  have hx : (a / b : ℚ) = (a / b : ℕ) + (a % b : ℕ) / b := by
    have h : (a : ℚ) = b * (a / b : ℕ) + (a % b : ℕ) := by
      exact_mod_cast (Nat.div_add_mod a b).symm
    rw [h, add_div, mul_div_cancel_left₀ _ hbq.ne']
  have hr : ((a % b : ℕ) : ℚ) / b < 1 := by
    rw [div_lt_one₀ hbq]
    exact_mod_cast Nat.mod_lt a hb
  rw [hx, accuracyOfFraction]
  by_cases h0 : a % b = 0
  · rw [if_pos h0, h0, Nat.cast_zero, zero_div, add_zero]
    exact represents_exact _
  · have hpos : (0 : ℚ) < (a % b : ℕ) / b := by
      refine div_pos ?_ hbq
      exact_mod_cast Nat.pos_of_ne_zero h0
    rw [if_neg h0]
    rcases Nat.lt_trichotomy (2 * (a % b)) b with h | h | h
    · have hlt : ((a % b : ℕ) : ℚ) / b < 1 / 2 := by
        rw [div_lt_div_iff₀ hbq (by norm_num)]
        have : (2 : ℚ) * (a % b : ℕ) < b := by exact_mod_cast h
        linarith
      rw [Nat.compare_eq_lt.2 h]
      exact represents_of_bits hpos hr (by simpa using hlt) (by simpa using hlt.ne)
    · have heq : ((a % b : ℕ) : ℚ) / b = 1 / 2 := by
        rw [div_eq_div_iff hbq.ne' (by norm_num)]
        have : (2 : ℚ) * (a % b : ℕ) = b := by exact_mod_cast h
        linarith
      rw [Nat.compare_eq_eq.2 h]
      exact represents_of_bits hpos hr (by simpa using heq.ge) (by simpa using heq)
    · have hgt : 1 / 2 < ((a % b : ℕ) : ℚ) / b := by
        rw [div_lt_div_iff₀ (by norm_num) hbq]
        have : (b : ℚ) < 2 * (a % b : ℕ) := by exact_mod_cast h
        linarith
      rw [Nat.compare_eq_gt.2 h]
      exact represents_of_bits hpos hr (by simpa using hgt.le) (by simpa using hgt.ne')

theorem le_target_divCore {m₁ m₂ : ℕ} {e₁ e₂ : ℤ} (h₁ : 0 < m₁) (h₂ : 0 < m₂) {t : ℤ}
    (ht : t = min (e₁ - e₂)
      (Format.binary64.targetExponent (totalExponent m₁ e₁ - totalExponent m₂ e₂))) :
    t ≤ target ((m₁ <<< (e₁ - e₂ - t).toNat) / m₂) t := by
  have hd : Format.binary64.targetExponent (totalExponent m₁ e₁ - totalExponent m₂ e₂)
      = max (m₁.log2 + 1 + e₁ - (m₂.log2 + 1 + e₂) - 53) minExponent := rfl
  rw [hd] at ht
  rw [target_eq]
  by_cases hmin : t ≤ minExponent
  · omega
  · have hshift : m₂.log2 + 53 ≤ m₁.log2 + (e₁ - e₂ - t).toNat := by omega
    have hnum : 2 ^ (m₂.log2 + 53) ≤ m₁ <<< (e₁ - e₂ - t).toNat := by
      rw [Nat.shiftLeft_eq]
      refine (Nat.pow_le_pow_right (by decide) hshift).trans ?_
      rw [Nat.pow_add]
      exact Nat.mul_le_mul_right _ (Nat.log2_self_le (Nat.ne_of_gt h₁))
    have hquot : 2 ^ 52 ≤ m₁ <<< (e₁ - e₂ - t).toNat / m₂ := by
      rw [Nat.le_div_iff_mul_le h₂]
      refine le_trans ?_ hnum
      rw [show m₂.log2 + 53 = 52 + (m₂.log2 + 1) by omega, Nat.pow_add]
      exact Nat.mul_le_mul_left _ (Nat.le_of_lt Nat.lt_log2_self)
    have hlog := (Nat.le_log2 (by omega)).2 hquot
    omega

theorem div_eq {s₁ s₂ : Sign} {m₁ m₂ m : ℕ} {e₁ e₂ e : ℤ} (h₁ : 0 < m₁) (h₂ : 0 < m₂)
    (hm : Normalized m e)
    (hn : Nearest m (downTo m e) ((m₁ / m₂ : ℚ) * 2 ^ (e₁ - e₂ - e))) :
    UnpackedFloat.div Format.binary64 (.finite s₁ m₁ e₁ h₁) (.finite s₂ m₂ e₂ h₂)
      = .finite (s₁ / s₂) m e hm.pos := by
  obtain ⟨t, ht⟩ : ∃ t, t = min (e₁ - e₂)
      (Format.binary64.targetExponent (totalExponent m₁ e₁ - totalExponent m₂ e₂)) := ⟨_, rfl⟩
  have hcore : divCore Format.binary64 m₁ e₁ m₂ e₂
      = (m₁ <<< (e₁ - e₂ - t).toNat / m₂, t,
          accuracyOfFraction (m₁ <<< (e₁ - e₂ - t).toNat % m₂) m₂) := by
    rw [ht]
    rfl
  have hnat : ((e₁ - e₂ - t).toNat : ℤ) = e₁ - e₂ - t := Int.toNat_of_nonneg (by omega)
  have hvalue : ((m₁ <<< (e₁ - e₂ - t).toNat : ℕ) / m₂ : ℚ) * 2 ^ (t - e)
      = (m₁ / m₂ : ℚ) * 2 ^ (e₁ - e₂ - e) := by
    rw [Nat.shiftLeft_eq, Nat.cast_mul, Nat.cast_pow, Nat.cast_ofNat, ← zpow_natCast, hnat,
      mul_div_right_comm, mul_assoc, ← zpow_add₀ (by norm_num)]
    congr 2
    omega
  rw [← hvalue] at hn
  rw [UnpackedFloat.div, hcore]
  exact roundWithAccuracy_eq (represents_div _ h₂) (le_target_divCore h₁ h₂ ht) hm hn

/-! ## Whole numbers that are numbers -/

/-- A number that is the whole number `n`, written with all 53 bits. -/
def IsWhole (x : Float) (n : ℕ) : Prop :=
  ∃ m e, ∃ h : 0 < m, x.toModel.unpack = .finite .positive m e h ∧ 2 ^ 52 ≤ m
    ∧ (m : ℚ) * 2 ^ e = n

theorem normalized_shiftLeft {n : ℕ} (h0 : 0 < n) (hl : n < 2 ^ 53) :
    Normalized (n <<< (52 - n.log2)) ((n.log2 : ℤ) - 52) := by
  have hlog : n.log2 ≤ 52 := Nat.le_of_lt_succ ((Nat.log2_lt (Nat.ne_of_gt h0)).2 hl)
  have hlt : n <<< (52 - n.log2) < 2 ^ 53 := by
    rw [Nat.shiftLeft_eq, show 53 = n.log2 + 1 + (52 - n.log2) by omega, Nat.pow_add 2 (_ + 1)]
    exact Nat.mul_lt_mul_of_pos_right Nat.lt_log2_self (Nat.two_pow_pos _)
  have hge : 2 ^ 52 ≤ n <<< (52 - n.log2) := by
    rw [Nat.shiftLeft_eq]
    refine le_trans ?_ (Nat.mul_le_mul_right _ (Nat.log2_self_le (Nat.ne_of_gt h0)))
    rw [← Nat.pow_add]
    exact Nat.pow_le_pow_right (by decide) (by omega)
  exact ⟨by omega, hlt, by rw [minExponent]; omega, by omega, .inl hge⟩

theorem shiftLeft_mul_zpow {n : ℕ} (hl : n.log2 ≤ 52) :
    ((n <<< (52 - n.log2) : ℕ) : ℚ) * 2 ^ ((n.log2 : ℤ) - 52) = n := by
  rw [Nat.shiftLeft_eq, Nat.cast_mul, Nat.cast_pow, Nat.cast_ofNat, ← zpow_natCast, mul_assoc,
    ← zpow_add₀ (by norm_num), show ((52 - n.log2 : ℕ) : ℤ) + (n.log2 - 52) = 0 by omega,
    zpow_zero, mul_one]

theorem isWhole_toFloat {n : ℕ} (h0 : 0 < n) (hl : n < 2 ^ 53) :
    IsWhole n.toUInt64.toFloat n := by
  have hlog : n.log2 ≤ 52 := Nat.le_of_lt_succ ((Nat.log2_lt (Nat.ne_of_gt h0)).2 hl)
  have hm := normalized_shiftLeft h0 hl
  have hge : 2 ^ 52 ≤ n <<< (52 - n.log2) := by
    rcases hm.normal with hn | he
    · exact hn
    · rw [minExponent] at he
      omega
  have hround : UnpackedFloat.round Format.binary64 .positive n 0
      = .finite .positive (n <<< (52 - n.log2)) ((n.log2 : ℤ) - 52) hm.pos := by
    have ht : Format.binary64.targetExponent (totalExponent n 0) = (n.log2 : ℤ) - 52 := by
      show max ((n.log2 : ℤ) + 1 + 0 - 53) (-1074) = n.log2 - 52
      omega
    have hs : (0 - ((n.log2 : ℤ) - 52)).toNat = 52 - n.log2 := by omega
    have he : (0 : ℤ) - (52 - n.log2 : ℕ) = (n.log2 : ℤ) - 52 := by omega
    rw [UnpackedFloat.round, ht, decreaseExponent, hs]
    simp only [he]
    exact roundWithAccuracy_of_normalized hm
  refine ⟨n <<< (52 - n.log2), (n.log2 : ℤ) - 52, hm.pos, ?_, hge, ?_⟩
  · have hn : n.toUInt64.toNat = n := by
      show n % 2 ^ 64 = n
      exact Nat.mod_eq_of_lt (by omega)
    show (Float.Model.pack (UnpackedFloat.ofInt Format.binary64 n.toUInt64.toNat)).unpack = _
    rw [hn, UnpackedFloat.ofInt, UnpackedFloat.normalize, Int.compare_eq_gt.2 (by omega)]
    simp only [Int.toNat_natCast, hround]
    exact unpack_pack hm
  · exact shiftLeft_mul_zpow hlog

/-- Whether a number is the whole number `n`, written with all 53 bits. -/
def isWhole (x : Float) (n : ℕ) : Bool :=
  match exact x with
  | .finite negative m e =>
    !negative && decide (2 ^ 52 ≤ m ∧ m * 2 ^ e.toNat = n * 2 ^ (-e).toNat)
  | _ => false

theorem isWhole_of_isWhole {x : Float} {n : ℕ} (h : isWhole x n = true) : IsWhole x n := by
  rw [isWhole] at h
  split at h
  · next negative m e he =>
    rw [Bool.and_eq_true, Bool.not_eq_true', decide_eq_true_eq] at h
    obtain ⟨rfl, hm, hv⟩ := h
    obtain ⟨hn, rfl⟩ := eq_ofParts he (by omega)
    refine ⟨m, e, hn.pos, unpack_ofParts hn, hm, ?_⟩
    have hq : (m : ℚ) * 2 ^ e.toNat = n * 2 ^ (-e).toNat := by exact_mod_cast hv
    have hz : (2 : ℚ) ^ e = 2 ^ e.toNat / 2 ^ (-e).toNat := by
      rw [← zpow_natCast, ← zpow_natCast, ← zpow_sub₀ (by norm_num)]
      congr 1
      omega
    rw [hz, ← mul_div_assoc, hq, mul_div_cancel_right₀]
    exact pow_ne_zero _ (by norm_num)
  · simp at h

/-- The powers of ten that are kept ready are powers of ten. -/
theorem isWhole_power (k : Fin Float.exactlyRepresentablePowersOfTen.size) :
    IsWhole Float.exactlyRepresentablePowersOfTen[k] (10 ^ k.val) := by
  have h : ∀ i : Fin Float.exactlyRepresentablePowersOfTen.size,
      isWhole Float.exactlyRepresentablePowersOfTen[i] (10 ^ i.val) = true := by
    decide +kernel
  exact isWhole_of_isWhole (h k)

/-! ## Decimals -/

variable {m : ℕ} {q : ℤ}

theorem mul_of_isWhole {x y : Float} {a b : ℕ} (hx : IsWhole x a) (hy : IsWhole y b)
    (hm : Normalized m q) (hn : Nearest m (downTo m q) ((a : ℚ) * b * 2 ^ (-q))) :
    x * y = ofParts false m q hm.pos := by
  obtain ⟨m₁, e₁, h₁, hux, hm₁, hvx⟩ := hx
  obtain ⟨m₂, e₂, h₂, huy, hm₂, hvy⟩ := hy
  have hE : e₁ + e₂ ≤ target (m₁ * m₂) (e₁ + e₂) := by
    have hge : 2 ^ 52 ≤ m₁ * m₂ := hm₁.trans (Nat.le_mul_of_pos_right _ h₂)
    have hlog := (Nat.le_log2 (by omega)).2 hge
    rw [target_eq]
    omega
  have hvalue : ((m₁ * m₂ : ℕ) : ℚ) * 2 ^ (e₁ + e₂ - q) = (a : ℚ) * b * 2 ^ (-q) := by
    rw [← hvx, ← hvy, sub_eq_add_neg, zpow_add₀ (by norm_num), zpow_add₀ (by norm_num)]
    push_cast
    ring
  rw [← hvalue] at hn
  show Float.ofModel (.pack (UnpackedFloat.mul Format.binary64 x.toModel.unpack y.toModel.unpack))
    = _
  rw [hux, huy, mul_eq h₁ h₂ hE hm hn]
  rfl

theorem div_of_isWhole {x y : Float} {a b : ℕ} (hx : IsWhole x a) (hy : IsWhole y b)
    (hm : Normalized m q) (hn : Nearest m (downTo m q) ((a : ℚ) / b * 2 ^ (-q))) :
    x / y = ofParts false m q hm.pos := by
  obtain ⟨m₁, e₁, h₁, hux, -, hvx⟩ := hx
  obtain ⟨m₂, e₂, h₂, huy, -, hvy⟩ := hy
  have hvalue : (m₁ / m₂ : ℚ) * 2 ^ (e₁ - e₂ - q) = (a : ℚ) / b * 2 ^ (-q) := by
    rw [← hvx, ← hvy, sub_eq_add_neg, zpow_add₀ (by norm_num), zpow_sub₀ (by norm_num),
      mul_div_mul_comm]
    ring
  rw [← hvalue] at hn
  show Float.ofModel (.pack (UnpackedFloat.div Format.binary64 x.toModel.unpack y.toModel.unpack))
    = _
  rw [hux, huy, div_eq h₁ h₂ hm hn]
  rfl

/-- A decimal that belongs to a number is neither too great nor too small to be computed. -/
theorem exponent_bounds {n : ℕ} {k : ℤ} (h0 : 0 < n) (hm : Normalized m q)
    (hn : Nearest m (downTo m q) ((n : ℚ) * 10 ^ k * 2 ^ (-q))) :
    k < 1024 ∧ -(1076 + n.log2 : ℤ) < k := by
  have htwo : (0 : ℚ) < 2 ^ q := zpow_pos (by norm_num) _
  have hn1 : (1 : ℚ) ≤ n := by exact_mod_cast h0
  have hvalue : (n : ℚ) * 10 ^ k = (n : ℚ) * 10 ^ k * 2 ^ (-q) * 2 ^ q := by
    rw [mul_assoc _ ((2 : ℚ) ^ (-q)), ← zpow_add₀ (by norm_num), neg_add_cancel, zpow_zero, mul_one]
  have hhigh : (n : ℚ) * 10 ^ k < 2 ^ (1024 : ℤ) := by
    have h1 : (n : ℚ) * 10 ^ k * 2 ^ (-q) ≤ m + 1 / 2 :=
      hn.high.elim le_of_lt fun h => le_of_eq h.1
    have h2 : (m : ℚ) + 1 ≤ 2 ^ (53 : ℤ) := by exact_mod_cast hm.lt
    have h3 : (2 : ℚ) ^ q ≤ 2 ^ (971 : ℤ) := zpow_le_zpow_right₀ (by norm_num) hm.greatest
    rw [hvalue, show (1024 : ℤ) = 53 + 971 by norm_num, zpow_add₀ (by norm_num)]
    exact mul_lt_mul (by linarith) h3 htwo (zpow_nonneg (by norm_num) _)
  have hlow : (2 : ℚ) ^ (-1075 : ℤ) ≤ n * 10 ^ k := by
    have h1 : (m : ℚ) - downTo m q ≤ n * 10 ^ k * 2 ^ (-q) :=
      hn.low.elim le_of_lt fun h => le_of_eq h.1
    have h2 : (1 : ℚ) ≤ m := by exact_mod_cast hm.pos
    have h3 : (2 : ℚ) ^ (-1074 : ℤ) ≤ 2 ^ q := zpow_le_zpow_right₀ (by norm_num) hm.least
    have h4 := downTo_le m q
    have h5 : (2 : ℚ) ^ (-1 : ℤ) = 1 / 2 := by norm_num
    rw [hvalue, show (-1075 : ℤ) = -1 + -1074 by norm_num, zpow_add₀ (by norm_num)]
    exact mul_le_mul (h5.trans_le (by linarith)) h3 (zpow_nonneg (by norm_num) _) (by linarith)
  constructor
  · by_cases hk : k < 0
    · omega
    · obtain ⟨a, rfl⟩ := Int.eq_ofNat_of_zero_le (Int.not_lt.1 hk)
      rw [zpow_natCast] at hhigh
      have h1 : (2 : ℚ) ^ a ≤ 10 ^ a := pow_le_pow_left₀ (by norm_num) (by norm_num) a
      have h2 : (10 : ℚ) ^ a ≤ n * 10 ^ a := le_mul_of_one_le_left (by positivity) hn1
      refine two_zpow_lt (lt_of_le_of_lt ?_ hhigh)
      rw [zpow_natCast]
      exact h1.trans h2
  · by_cases hk : k < 0
    · obtain ⟨a, rfl⟩ : ∃ a : ℕ, k = -(a : ℤ) := ⟨k.natAbs, by omega⟩
      have h1 : (10 : ℚ) ^ (-(a : ℤ)) ≤ 2 ^ (-(a : ℤ)) := by
        rw [zpow_neg, zpow_neg, zpow_natCast, zpow_natCast]
        exact inv_anti₀ (by positivity) (pow_le_pow_left₀ (by norm_num) (by norm_num) a)
      have h2 : (n : ℚ) * 10 ^ (-(a : ℤ)) < 2 ^ ((n.log2 : ℤ) + 1 + -(a : ℤ)) := by
        rw [zpow_add₀ (by norm_num)]
        refine mul_lt_mul ?_ h1 (zpow_pos (by norm_num) _) (zpow_nonneg (by norm_num) _)
        have := lt_of_log2 n
        linarith
      have := two_zpow_lt (lt_of_le_of_lt hlow h2)
      omega
    · omega

theorem ofScientific_eq {n : ℕ} {k : ℤ} (h0 : 0 < n) (hm : Normalized m q)
    (hn : Nearest m (downTo m q) ((n : ℚ) * 10 ^ k * 2 ^ (-q))) :
    UnpackedFloat.ofScientific Format.binary64 n k = .finite .positive m q hm.pos := by
  obtain ⟨hhigh, hlow⟩ := exponent_bounds h0 hm hn
  have h1 : ¬k > 2 ^ Format.binary64.exponentBits := by
    show ¬k > 2 ^ 11
    omega
  have h2 : ¬k < -((2 ^ Format.binary64.exponentBits : ℤ) + n.log2) := by
    show ¬k < -((2 ^ 11 : ℤ) + n.log2)
    omega
  rw [UnpackedFloat.ofScientific, dif_neg (Nat.ne_of_gt h0), if_neg h1, if_neg h2]
  by_cases hk : 0 ≤ k
  · have hkn : ((k.toNat : ℕ) : ℤ) = k := Int.toNat_of_nonneg hk
    have hvalue : ((n <<< 53 * 10 ^ k.toNat : ℕ) : ℚ) * 2 ^ (-53 + 0 - q)
        = (n : ℚ) * 10 ^ k * 2 ^ (-q) := by
      rw [Nat.shiftLeft_eq, sub_eq_add_neg, zpow_add₀ (by norm_num)]
      push_cast
      rw [← zpow_natCast (10 : ℚ), hkn]
      norm_num
      ring
    have hE : (-53 + 0 : ℤ) ≤ target (n <<< 53 * 10 ^ k.toNat) (-53 + 0) := by
      have hge : 2 ^ 53 ≤ n <<< 53 * 10 ^ k.toNat := by
        rw [Nat.shiftLeft_eq]
        exact (Nat.le_mul_of_pos_left _ h0).trans (Nat.le_mul_of_pos_right _ (by positivity))
      have hlog := (Nat.le_log2 (by omega)).2 hge
      rw [target_eq]
      omega
    rw [if_pos hk]
    rw [← hvalue] at hn
    exact mul_eq _ _ hE hm hn
  · have hkn : (((-k).toNat : ℕ) : ℤ) = -k := Int.toNat_of_nonneg (by omega)
    have hvalue : ((n : ℚ) / (10 ^ (-k).toNat : ℕ)) * 2 ^ (0 - 0 - q)
        = (n : ℚ) * 10 ^ k * 2 ^ (-q) := by
      rw [Nat.cast_pow, Nat.cast_ofNat, ← zpow_natCast (10 : ℚ), hkn, zpow_neg, div_inv_eq_mul,
        sub_self, zero_sub]
    rw [if_neg hk]
    rw [← hvalue] at hn
    exact div_eq _ _ hm hn

theorem nearest_eq {n : ℕ} {k : ℤ} (h0 : 0 < n) (hm : Normalized m q)
    (hn : Nearest m (downTo m q) ((n : ℚ) * 10 ^ k * 2 ^ (-q))) :
    nearest n k = ofParts false m q hm.pos := by
  rw [nearest, Float.ofScientific]
  by_cases hf : n < 2 ^ 53 ∧ k.natAbs ≤ 22
  · rw [dif_pos hf]
    have hx := isWhole_toFloat h0 hf.1
    have hp := isWhole_power ⟨k.natAbs, Nat.lt_succ_of_le hf.2⟩
    by_cases hk : k < 0
    · have habs : (k.natAbs : ℤ) = -k := by omega
      rw [if_pos (decide_eq_true hk)]
      apply div_of_isWhole hx hp hm
      rwa [Nat.cast_pow, Nat.cast_ofNat, ← zpow_natCast (10 : ℚ), habs, zpow_neg, div_inv_eq_mul]
    · have habs : (k.natAbs : ℤ) = k := by omega
      rw [if_neg (by simpa using hk)]
      apply mul_of_isWhole hx hp hm
      rwa [Nat.cast_pow, Nat.cast_ofNat, ← zpow_natCast (10 : ℚ), habs]
  · have habs : (if decide (k < 0) = true then Int.negOfNat k.natAbs else Int.ofNat k.natAbs)
        = k := by
      split
      · next hk =>
        have := of_decide_eq_true hk
        rw [Int.negOfNat_eq]
        show -(k.natAbs : ℤ) = k
        omega
      · next hk =>
        have : ¬k < 0 := fun h => hk (decide_eq_true h)
        show (k.natAbs : ℤ) = k
        omega
    rw [dif_neg hf]
    simp only [habs]
    show Float.ofModel (.pack (UnpackedFloat.ofScientific Format.binary64 n k)) = _
    rw [ofScientific_eq h0 hm hn]
    rfl

/-! ## Whole numbers -/

/-- A natural number rounded to 53 bits, a tie to the even mantissa. -/
def roundNat (n : ℕ) : ℕ := roundDiv n (2 ^ (n.log2 - 52)) * 2 ^ (n.log2 - 52)

theorem roundNat_of_lt {n : ℕ} (h : n < 2 ^ 53) : roundNat n = n := by
  have hlog : n.log2 - 52 = 0 := by
    rcases Nat.eq_zero_or_pos n with rfl | h0
    · rfl
    · have := (Nat.log2_lt (Nat.ne_of_gt h0)).2 h
      omega
  rw [roundNat, hlog]
  simp [roundDiv, Nat.mod_one]

/-- A quotient belongs to the one of the two mantissas next to it that it is rounded to. -/
theorem nearest_roundDiv (num : ℕ) {den : ℕ} (hd : 0 < den) (e : ℤ) :
    (roundDiv num den = num / den
        ∧ Nearest (num / den) (downTo (num / den) e) ((num : ℚ) / den))
      ∨ (roundDiv num den = num / den + 1 ∧ Nearest (num / den + 1) (1 / 2) ((num : ℚ) / den)) := by
  have hden : (0 : ℚ) < den := by exact_mod_cast hd
  have hsplit : (num : ℚ) / den = (num / den : ℕ) + (num % den : ℕ) / den := by
    rw [eq_comm, ← mul_div_cancel_left₀ ((num / den : ℕ) : ℚ) hden.ne', ← add_div]
    exact_mod_cast congrArg (fun n : ℕ => (n : ℚ) / den) (Nat.div_add_mod num den)
  have hp := downTo_pos (num / den) e
  have hmod : num % den < den := Nat.mod_lt num hd
  rw [hsplit, roundDiv]
  generalize num / den = m at hp ⊢
  generalize num % den = r at hmod ⊢
  have hr : (0 : ℚ) ≤ r / den := by positivity
  rcases lt_trichotomy (2 * r) den with h | h | h
  · have hlt : (r : ℚ) / den < 1 / 2 := by
      rw [div_lt_div_iff₀ hden two_pos]
      exact_mod_cast (by omega : r * 2 < 1 * den)
    rw [if_pos h]
    exact .inl ⟨rfl, .inl (by linarith), .inl (by linarith)⟩
  · have heq : (r : ℚ) / den = 1 / 2 := by
      rw [div_eq_div_iff hden.ne' two_ne_zero]
      exact_mod_cast (by omega : r * 2 = 1 * den)
    rw [if_neg (by omega), if_neg (by omega), heq]
    rcases Nat.mod_two_eq_zero_or_one m with h0 | h1
    · exact .inl ⟨by omega, .inl (by linarith), .inr ⟨rfl, h0⟩⟩
    · refine .inr ⟨by omega, .inr ⟨?_, by omega⟩, .inl ?_⟩
      · push_cast
        ring
      · push_cast
        linarith
  · have hlt : 1 / 2 < (r : ℚ) / den := by
      rw [div_lt_div_iff₀ two_pos hden]
      exact_mod_cast (by omega : 1 * den < r * 2)
    have hone : (r : ℚ) / den < 1 := by
      rw [div_lt_one hden]
      exact_mod_cast hmod
    rw [if_neg (by omega), if_pos h]
    refine .inr ⟨rfl, .inl ?_, .inl ?_⟩
    · push_cast
      linarith
    · push_cast
      linarith

theorem roundNat_of_log2 {n k : ℕ} (h : n.log2 = 52 + k) :
    roundNat n = roundDiv n (2 ^ k) * 2 ^ k := by
  rw [roundNat, h, Nat.add_sub_cancel_left]

/-- A mantissa that rounding has made too long is cut by half: the next number is a power of two. -/
theorem nearest_carry {k : ℕ} {y : ℚ} (h : Nearest (2 ^ 53) (1 / 2) y) :
    Nearest (2 ^ 52) (downTo (2 ^ 52) (k + 1)) (y / 2) := by
  have hd : downTo (2 ^ 52) (k + 1) = 1 / 4 := if_pos ⟨rfl, by rw [minExponent]; omega⟩
  have hlow : ((2 ^ 53 : ℕ) : ℚ) - 1 / 2 ≤ y := h.low.elim le_of_lt fun h => h.1.le
  have hhigh : y ≤ (2 ^ 53 : ℕ) + 1 / 2 := h.high.elim le_of_lt fun h => h.1.le
  have hhalf : ((2 ^ 53 : ℕ) : ℚ) = 2 * (2 ^ 52 : ℕ) := by norm_num
  have hquarter : ((2 ^ 52 : ℕ) : ℚ) - 1 / 4 ≤ y / 2 := by linarith
  rw [hd]
  exact ⟨(lt_or_eq_of_le hquarter).imp id fun he => ⟨he, by decide⟩, .inl (by linarith)⟩

theorem exists_nearest_short {n : ℕ} (h0 : 0 < n) (hn : n < 2 ^ 53) :
    ∃ m q, Normalized m q ∧ Nearest m (downTo m q) ((n : ℚ) * 2 ^ (-q))
      ∧ (m : ℚ) * 2 ^ q = roundNat n := by
  have hlog : n.log2 ≤ 52 := Nat.le_of_lt_succ ((Nat.log2_lt (Nat.ne_of_gt h0)).2 hn)
  have hvalue := shiftLeft_mul_zpow hlog
  refine ⟨_, _, normalized_shiftLeft h0 hn, ?_, by rw [hvalue, roundNat_of_lt hn]⟩
  have hv : (n : ℚ) * 2 ^ (-((n.log2 : ℤ) - 52)) = (n <<< (52 - n.log2) : ℕ) := by
    conv_lhs => rw [← hvalue]
    rw [mul_assoc, ← zpow_add₀ (by norm_num), add_neg_cancel, zpow_zero, mul_one]
  have hp := downTo_pos (n <<< (52 - n.log2)) ((n.log2 : ℤ) - 52)
  rw [hv]
  exact ⟨.inl (by linarith), .inl (by linarith)⟩

theorem exists_nearest_long {n : ℕ} (hn : 2 ^ 53 ≤ n) (hl : n < 2 ^ 64) :
    ∃ m q, Normalized m q ∧ Nearest m (downTo m q) ((n : ℚ) * 2 ^ (-q))
      ∧ (m : ℚ) * 2 ^ q = roundNat n := by
  have hlog : 53 ≤ n.log2 := (Nat.le_log2 (by omega)).2 hn
  have hlog' : n.log2 < 64 := (Nat.log2_lt (by omega)).2 hl
  obtain ⟨k, hk⟩ : ∃ k, n.log2 = 52 + k := ⟨n.log2 - 52, by omega⟩
  have hge : 2 ^ 52 ≤ n / 2 ^ k := by
    rw [Nat.le_div_iff_mul_le (Nat.two_pow_pos k), ← Nat.pow_add, ← hk]
    exact Nat.log2_self_le (by omega)
  have hlt : n / 2 ^ k < 2 ^ 53 := by
    rw [Nat.div_lt_iff_lt_mul (Nat.two_pow_pos k), ← Nat.pow_add,
      show 53 + k = n.log2 + 1 by omega]
    exact Nat.lt_log2_self
  have hvalue : (n : ℚ) * 2 ^ (-(k : ℤ)) = (n : ℚ) / (2 ^ k : ℕ) := by
    rw [zpow_neg, zpow_natCast, div_eq_mul_inv, Nat.cast_pow, Nat.cast_ofNat]
  have hround : (roundNat n : ℚ) = roundDiv n (2 ^ k) * 2 ^ (k : ℤ) := by
    rw [roundNat_of_log2 hk, zpow_natCast]
    push_cast
    rfl
  have hmin : minExponent ≤ k := by
    rw [minExponent]
    omega
  rw [hround]
  rcases nearest_roundDiv n (Nat.two_pow_pos k) k with ⟨hr, h⟩ | ⟨hr, h⟩ <;> rw [hr]
  · exact ⟨n / 2 ^ k, k, ⟨by omega, hlt, hmin, by omega, .inl hge⟩, hvalue ▸ h, rfl⟩
  · rcases Nat.lt_or_eq_of_le (Nat.succ_le_of_lt hlt) with hs | hs
    · refine ⟨n / 2 ^ k + 1, k, ⟨by omega, hs, hmin, by omega, .inl (by omega)⟩, ?_, rfl⟩
      rw [downTo, if_neg (by omega), hvalue]
      exact h
    · have hs : n / 2 ^ k + 1 = 2 ^ 53 := hs
      refine ⟨2 ^ 52, k + 1, ⟨by decide, by decide, by omega, by omega, .inl le_rfl⟩, ?_, ?_⟩
      · rw [neg_add, zpow_add₀ two_ne_zero, ← mul_assoc, zpow_neg_one, ← div_eq_mul_inv, hvalue]
        rw [hs] at h
        exact nearest_carry h
      · rw [hs, zpow_add_one₀ two_ne_zero]
        push_cast
        ring

theorem exists_nearest {n : ℕ} (h0 : 0 < n) (hl : n < 2 ^ 64) :
    ∃ m q, Normalized m q ∧ Nearest m (downTo m q) ((n : ℚ) * 2 ^ (-q))
      ∧ (m : ℚ) * 2 ^ q = roundNat n := by
  rcases Nat.lt_or_ge n (2 ^ 53) with hn | hn
  · exact exists_nearest_short h0 hn
  · exact exists_nearest_long hn hl

theorem exists_ofNat_eq {n : ℕ} (h0 : 0 < n) (hl : n < 2 ^ 64) :
    ∃ m q, ∃ hm : Normalized m q,
      Float.ofNat n = ofParts false m q hm.pos ∧ (m : ℚ) * 2 ^ q = roundNat n := by
  obtain ⟨m, q, hm, hn, hv⟩ := exists_nearest h0 hl
  exact ⟨m, q, hm, nearest_eq (k := 0) h0 hm (by rwa [zpow_zero, mul_one]), hv⟩

/-- No integer of 64 bits, with or without a sign, is too great to be rounded. -/
theorem isFinite_ofInt {n : ℤ} (hlow : -2 ^ 64 < n) (hhigh : n < 2 ^ 64) :
    (Float.ofInt n).isFinite = true := by
  cases n with
  | ofNat n =>
    rcases Nat.eq_zero_or_pos n with rfl | h0
    · decide +kernel
    · obtain ⟨m, q, hm, hx, -⟩ := exists_ofNat_eq h0 (by simpa using hhigh)
      show (Float.ofNat n).isFinite = true
      rw [hx]
      exact isFinite_ofParts hm
  | negSucc n =>
    obtain ⟨m, q, hm, hx, -⟩ := exists_ofNat_eq n.succ_pos (by omega)
    show (-Float.ofNat n.succ).isFinite = true
    rw [hx, neg_ofParts hm]
    exact isFinite_ofParts hm

end SchemaLang.Number
