import SchemaLang.Proofs.Number.Binary64

/-!
# Rounding to the nearest number

What is nearer to one number than to any other, or half way to its neighbour when its mantissa is
even, is rounded to it.  A mantissa that is too long is shifted bit by bit, and two bits keep what
rounding has to know of those that are lost.

* `Represents.shiftRight`: the two bits stay right.
* `roundWithAccuracy_eq`: rounding finds the number that a value belongs to.
-/

namespace SchemaLang.Number

open Float.Model (Format UnpackedFloat totalExponent)
open Float.Model.UnpackedFloat

/-- The mantissa is the whole part of `x`, the round bit says whether the rest is at least a half
and the sticky bit whether it is neither nothing nor just a half. -/
structure Represents (em : ExtendedMantissa) (x : ℚ) : Prop where
  low : (em.mantissa : ℚ) ≤ x
  high : x < em.mantissa + 1
  round : em.roundBit = true ↔ em.mantissa + 1 / 2 ≤ x
  sticky : em.stickyBit = true ↔ x ≠ em.mantissa ∧ x ≠ em.mantissa + 1 / 2

/-- The value `x`, in units of the last place of `m`, is rounded to `m` from below `m`, at a
distance of at most `d`, and from above it. -/
structure Nearest (m : ℕ) (d x : ℚ) : Prop where
  low : (m : ℚ) - d < x ∨ ((m : ℚ) - d = x ∧ m % 2 = 0)
  high : x < m + 1 / 2 ∨ (x = m + 1 / 2 ∧ m % 2 = 0)

/-- Below a power of two the next number is half as far away. -/
def downTo (m : ℕ) (e : ℤ) : ℚ := if m = 2 ^ 52 ∧ minExponent < e then 1 / 4 else 1 / 2

theorem represents_exact (m : ℕ) :
    Represents (.ofMantissaAndAccuracy m .exact) m where
  low := le_refl _
  high := by
    show (m : ℚ) < m + 1
    linarith
  round := by
    show false = true ↔ (m : ℚ) + 1 / 2 ≤ m
    constructor
    · intro h
      simp at h
    · intro h
      linarith
  sticky := by
    show false = true ↔ (m : ℚ) ≠ m ∧ (m : ℚ) ≠ m + 1 / 2
    simp

/-- One of the two bits is set exactly when something is lost. -/
theorem Represents.bits {em : ExtendedMantissa} {x : ℚ} (h : Represents em x) :
    (em.roundBit || em.stickyBit) = true ↔ x ≠ em.mantissa := by
  rw [Bool.or_eq_true, h.round, h.sticky]
  constructor
  · rintro (hr | hs)
    · intro he
      linarith
    · exact hs.1
  · intro hx
    by_cases hr : (em.mantissa : ℚ) + 1 / 2 ≤ x
    · exact .inl hr
    · exact .inr ⟨hx, fun he => hr (le_of_eq he.symm)⟩

theorem Represents.shiftRightOne {em : ExtendedMantissa} {x : ℚ} (h : Represents em x) :
    Represents em.shiftRightOne (x / 2) := by
  have hb := h.bits
  have hlow := h.low
  have hhigh := h.high
  have hk : (em.mantissa : ℚ) = 2 * (em.mantissa / 2 : ℕ) + (em.mantissa % 2 : ℕ) := by
    exact_mod_cast (Nat.div_add_mod em.mantissa 2).symm
  have hm : (em.mantissa % 2 != 0) = true ↔ em.mantissa % 2 = 1 := by
    rw [bne_iff_ne]
    omega
  rcases Nat.mod_two_eq_zero_or_one em.mantissa with h0 | h1
  · rw [h0, Nat.cast_zero, add_zero] at hk
    refine ⟨?_, ?_, ?_, ?_⟩
    · show ((em.mantissa / 2 : ℕ) : ℚ) ≤ x / 2
      linarith
    · show x / 2 < ((em.mantissa / 2 : ℕ) : ℚ) + 1
      linarith
    · show (em.mantissa % 2 != 0) = true ↔ ((em.mantissa / 2 : ℕ) : ℚ) + 1 / 2 ≤ x / 2
      rw [hm]
      constructor
      · intro h1
        omega
      · intro hle
        linarith
    · show (em.roundBit || em.stickyBit) = true
        ↔ x / 2 ≠ ((em.mantissa / 2 : ℕ) : ℚ) ∧ x / 2 ≠ ((em.mantissa / 2 : ℕ) : ℚ) + 1 / 2
      rw [hb]
      constructor
      · intro hx
        refine ⟨fun he => hx (by linarith), fun he => ?_⟩
        linarith
      · intro hx he
        exact hx.1 (by linarith)
  · rw [h1, Nat.cast_one] at hk
    refine ⟨?_, ?_, ?_, ?_⟩
    · show ((em.mantissa / 2 : ℕ) : ℚ) ≤ x / 2
      linarith
    · show x / 2 < ((em.mantissa / 2 : ℕ) : ℚ) + 1
      linarith
    · show (em.mantissa % 2 != 0) = true ↔ ((em.mantissa / 2 : ℕ) : ℚ) + 1 / 2 ≤ x / 2
      rw [hm]
      constructor
      · intro _
        linarith
      · intro _
        exact h1
    · show (em.roundBit || em.stickyBit) = true
        ↔ x / 2 ≠ ((em.mantissa / 2 : ℕ) : ℚ) ∧ x / 2 ≠ ((em.mantissa / 2 : ℕ) : ℚ) + 1 / 2
      rw [hb]
      constructor
      · intro hx
        refine ⟨fun he => ?_, fun he => hx (by linarith)⟩
        linarith
      · intro hx he
        exact hx.2 (by linarith)

theorem Represents.shiftRight {em : ExtendedMantissa} {x : ℚ} (h : Represents em x) (n : ℕ) :
    Represents (em >>> n) (x / 2 ^ n) := by
  induction n with
  | zero =>
    rw [pow_zero, div_one]
    exact h
  | succ n ih =>
    have hs : em >>> (n + 1) = (em >>> n).shiftRightOne := rfl
    rw [hs, pow_succ, ← div_div]
    exact ih.shiftRightOne

theorem Represents.roundedMantissa {em : ExtendedMantissa} {x d : ℚ} {m : ℕ}
    (h : Represents em x) (hd : d ≤ 1 / 2) (hn : Nearest m d x) : em.roundedMantissa = m := by
  obtain ⟨k, r, s⟩ := em
  obtain ⟨low, high, round, sticky⟩ := h
  simp only at low high round sticky
  have hlow : (m : ℚ) - 1 / 2 < x ∨ ((m : ℚ) - 1 / 2 = x ∧ m % 2 = 0) := by
    rcases hn.low with hl | ⟨hl, hm⟩
    · exact .inl (by linarith)
    · rcases lt_or_eq_of_le (show (m : ℚ) - 1 / 2 ≤ x by linarith) with hl | hl
      · exact .inl hl
      · exact .inr ⟨hl, hm⟩
  have hlow' : (m : ℚ) - 1 / 2 ≤ x := hlow.elim le_of_lt fun h => le_of_eq h.1
  have hhigh : x ≤ m + 1 / 2 := hn.high.elim le_of_lt fun h => le_of_eq h.1
  cases r with
  | false =>
    have hx : x < k + 1 / 2 := by
      apply lt_of_not_ge
      intro hc
      simp at round
      linarith
    have h1 : m < k + 1 := by exact_mod_cast (show (m : ℚ) < k + 1 by linarith)
    have h2 : k < m + 1 := by exact_mod_cast (show (k : ℚ) < m + 1 by linarith)
    have hr : ExtendedMantissa.roundedMantissa ⟨k, false, s⟩ = k := by cases s <;> rfl
    rw [hr]
    omega
  | true =>
    have hx : (k : ℚ) + 1 / 2 ≤ x := round.1 rfl
    have h1 : m < k + 2 := by exact_mod_cast (show (m : ℚ) < k + 2 by linarith)
    have h2 : k < m + 1 := by exact_mod_cast (show (k : ℚ) < m + 1 by linarith)
    cases s with
    | true =>
      have hne := (sticky.1 rfl).2
      have hlt : (k : ℚ) + 1 / 2 < x := lt_of_le_of_ne hx hne.symm
      have h3 : k < m := by exact_mod_cast (show (k : ℚ) < m by linarith)
      show k + 1 = m
      omega
    | false =>
      have hne : x ≠ k := fun he => by linarith
      have heq : x = k + 1 / 2 := Classical.byContradiction fun hc => by
        simpa using sticky.2 ⟨hne, hc⟩
      show k + k % 2 = m
      rcases Nat.lt_or_eq_of_le (Nat.le_of_lt_succ h2) with hkm | rfl
      · obtain rfl : m = k + 1 := by omega
        rcases hlow with hl | ⟨-, he⟩
        · push_cast at hl
          linarith
        · omega
      · rcases hn.high with hh | ⟨-, he⟩
        · linarith
        · omega

/-! ## Rounding to a mantissa of 53 bits -/

theorem le_of_log2 {m : ℕ} (h : m ≠ 0) : (2 : ℚ) ^ (m.log2 : ℤ) ≤ m := by
  rw [zpow_natCast]
  exact_mod_cast Nat.log2_self_le h

theorem lt_of_log2 (m : ℕ) : (m : ℚ) + 1 ≤ 2 ^ ((m.log2 : ℤ) + 1) := by
  have h : m + 1 ≤ 2 ^ (m.log2 + 1) := Nat.lt_log2_self
  exact_mod_cast h

theorem two_zpow_lt {a b : ℤ} (h : (2 : ℚ) ^ a < 2 ^ b) : a < b :=
  (zpow_lt_zpow_iff_right₀ (by norm_num)).1 h

/-- The exponent that rounding shifts a mantissa to. -/
def target (m : ℕ) (e : ℤ) : ℤ := Format.binary64.targetExponent (totalExponent m e)

theorem target_eq (m : ℕ) (e : ℤ) : target m e = max (m.log2 + 1 + e - 53) minExponent := rfl

theorem downTo_pos (m : ℕ) (e : ℤ) : 0 < downTo m e := by
  rw [downTo]
  split <;> norm_num

theorem downTo_le (m : ℕ) (e : ℤ) : downTo m e ≤ 1 / 2 := by
  rw [downTo]
  split <;> norm_num

/-- A value that belongs to a number is shifted to the exponent of the number, or to the one below
it when it is less than a power of two that it belongs to. -/
theorem target_cases {M m : ℕ} {E e : ℤ} {x : ℚ} (hE : E ≤ target M E) (hlow : (M : ℚ) ≤ x)
    (hhigh : x < M + 1) (hm : Normalized m e)
    (hn : Nearest m (downTo m e) (x * 2 ^ (E - e))) :
    target M E = e
      ∨ (target M E = e - 1 ∧ m = 2 ^ 52 ∧ minExponent < e ∧ x * 2 ^ (E - e) < m) := by
  have hpos : (0 : ℚ) < 2 ^ (E - e) := zpow_pos (by norm_num) _
  have ht := target_eq M E
  have hle : target M E ≤ e := by
    have hy : x * 2 ^ (E - e) < (2 : ℚ) ^ (53 : ℤ) := by
      have h1 : x * 2 ^ (E - e) ≤ m + 1 / 2 := hn.high.elim le_of_lt fun h => le_of_eq h.1
      have h2 : (m : ℚ) + 1 ≤ 2 ^ 53 := by exact_mod_cast hm.lt
      have h3 : (2 : ℚ) ^ (53 : ℤ) = 2 ^ 53 := by norm_cast
      linarith
    by_cases hM : M = 0
    · subst hM
      rw [Nat.log2_zero] at ht
      have := hm.least
      omega
    · have h4 : (2 : ℚ) ^ ((M.log2 : ℤ) + (E - e)) < 2 ^ (53 : ℤ) := by
        rw [zpow_add₀ (by norm_num)]
        exact lt_of_le_of_lt
          (mul_le_mul_of_nonneg_right ((le_of_log2 hM).trans hlow) hpos.le) hy
      have := two_zpow_lt h4
      have := hm.least
      omega
  by_cases he : e = minExponent
  · omega
  · have hm52 : 2 ^ 52 ≤ m := hm.normal.resolve_right he
    have hme : minExponent < e := lt_of_le_of_ne hm.least (Ne.symm he)
    have hx : x * 2 ^ (E - e) < (2 : ℚ) ^ ((M.log2 : ℤ) + 1 + (E - e)) := by
      rw [zpow_add₀ (by norm_num)]
      exact mul_lt_mul_of_pos_right (lt_of_lt_of_le hhigh (lt_of_log2 M)) hpos
    have hmd : (m : ℚ) - downTo m e ≤ x * 2 ^ (E - e) :=
      hn.low.elim le_of_lt fun h => le_of_eq h.1
    have hmq : (2 : ℚ) ^ 52 ≤ m := by exact_mod_cast hm52
    have h51 : (2 : ℚ) ^ (51 : ℤ) < x * 2 ^ (E - e) := by
      have h3 : (2 : ℚ) ^ (51 : ℤ) = 2 ^ 51 := by norm_cast
      have := downTo_le m e
      linarith
    have hge := two_zpow_lt (h51.trans hx)
    rcases lt_or_eq_of_le hle with hlt | heq
    · right
      have h52 : x * 2 ^ (E - e) < 2 ^ 52 := by
        apply lt_of_lt_of_le hx
        have h3 : (2 : ℚ) ^ 52 = 2 ^ (52 : ℤ) := by norm_cast
        rw [h3]
        exact zpow_le_zpow_right₀ (by norm_num) (by omega)
      have hm2 : m = 2 ^ 52 := by
        by_contra hc
        have hlt : 2 ^ 52 + 1 ≤ m := by omega
        have hq : (2 : ℚ) ^ 52 + 1 ≤ m := by exact_mod_cast hlt
        have := downTo_le m e
        linarith
      refine ⟨by omega, hm2, hme, ?_⟩
      rw [hm2]
      exact_mod_cast h52
    · exact .inl heq

theorem mantissa_ofMantissaAndAccuracy (m : ℕ) (acc : Accuracy) :
    (ExtendedMantissa.ofMantissaAndAccuracy m acc).mantissa = m := by
  cases acc with
  | exact => rfl
  | inexact o => cases o <;> rfl

theorem target_of_normalized {m : ℕ} {e : ℤ} (h : Normalized m e) : target m e = e := by
  have hl := (Nat.log2_lt (Nat.ne_of_gt h.pos)).2 h.lt
  have := h.least
  rw [target_eq]
  rcases h.normal with hn | he
  · have := (Nat.le_log2 (Nat.ne_of_gt h.pos)).2 hn
    omega
  · omega

/-- A mantissa stays as it is when it is shifted to the exponent that it has. -/
theorem shiftToTargetExponent_of_target {m : ℕ} {e : ℤ} (h : target m e = e) :
    shiftToTargetExponent Format.binary64 m e .exact = (⟨m, false, false⟩, e) := by
  have hs : (target m e - e).toNat = 0 := by
    rw [h]
    omega
  show (ExtendedMantissa.ofMantissaAndAccuracy m .exact >>> (target m e - e).toNat,
    e + (target m e - e).toNat) = _
  rw [hs]
  exact Prod.ext rfl (by simp)

/-- A mantissa that rounding has made too long is halved. -/
theorem shiftToTargetExponent_of_overflow {e : ℤ} (h : minExponent < e) :
    shiftToTargetExponent Format.binary64 (2 ^ 53) (e - 1) .exact
      = (⟨2 ^ 52, false, false⟩, e) := by
  have hl : (2 ^ 53 : ℕ).log2 = 53 := Nat.log2_two_pow
  have hs : (target (2 ^ 53) (e - 1) - (e - 1)).toNat = 1 := by
    rw [target_eq, hl]
    omega
  show (ExtendedMantissa.ofMantissaAndAccuracy (2 ^ 53) .exact
      >>> (target (2 ^ 53) (e - 1) - (e - 1)).toNat,
    e - 1 + (target (2 ^ 53) (e - 1) - (e - 1)).toNat) = _
  rw [hs]
  exact Prod.ext rfl (by show e - 1 + 1 = e; omega)

theorem roundWithAccuracy_eq {s : Sign} {M m : ℕ} {E e : ℤ} {acc : Accuracy} {x : ℚ}
    (hx : Represents (.ofMantissaAndAccuracy M acc) x) (hE : E ≤ target M E)
    (hm : Normalized m e) (hn : Nearest m (downTo m e) (x * 2 ^ (E - e))) :
    roundWithAccuracy Format.binary64 s M E acc = .finite s m e hm.pos := by
  have hlow := hx.low
  have hhigh := hx.high
  rw [mantissa_ofMantissaAndAccuracy] at hlow hhigh
  have hnat : ((target M E - E).toNat : ℤ) = target M E - E := Int.toNat_of_nonneg (by omega)
  have hshift : shiftToTargetExponent Format.binary64 M E acc
      = (ExtendedMantissa.ofMantissaAndAccuracy M acc >>> (target M E - E).toNat, target M E) := by
    refine Prod.ext rfl ?_
    show E + ((target M E - E).toNat : ℤ) = target M E
    omega
  have hr := hx.shiftRight (target M E - E).toNat
  have hpow : x / 2 ^ (target M E - E).toNat = x * 2 ^ (E - target M E) := by
    rw [div_eq_mul_inv, ← zpow_natCast, ← zpow_neg, hnat, neg_sub]
  rw [hpow] at hr
  rw [roundWithAccuracy, hshift]
  rcases target_cases hE hlow hhigh hm hn with ht | ⟨ht, hm2, hme, hlt⟩
  · rw [ht] at hr
    have hpos : m ≠ 0 := Nat.ne_of_gt hm.pos
    simp only [ht, hr.roundedMantissa (downTo_le m e) hn,
      shiftToTargetExponent_of_target (target_of_normalized hm), dif_neg hpos]
  · subst hm2
    have htwo : x * 2 ^ (E - (e - 1)) = x * 2 ^ (E - e) * 2 := by
      rw [show E - (e - 1) = E - e + 1 by omega, zpow_add_one₀ (by norm_num), mul_assoc]
    have hn2 : Nearest (2 ^ 53) (1 / 2) (x * 2 ^ (E - (e - 1))) := by
      have hd : downTo (2 ^ 52) e = 1 / 4 := if_pos ⟨rfl, hme⟩
      have hc : ((2 ^ 53 : ℕ) : ℚ) = 2 * (2 ^ 52 : ℕ) := by norm_num
      rw [htwo]
      constructor
      · rw [hc]
        rcases hn.low with hl | ⟨hl, -⟩
        · rw [hd] at hl
          exact .inl (by linarith)
        · rw [hd] at hl
          exact .inr ⟨by linarith, by norm_num⟩
      · rw [hc, mul_comm]
        exact .inl (lt_add_of_lt_of_pos (mul_lt_mul_of_pos_left hlt (by norm_num)) (by norm_num))
    rw [ht] at hr
    simp only [ht, hr.roundedMantissa le_rfl hn2, shiftToTargetExponent_of_overflow hme]
    rw [dif_neg (by norm_num)]

theorem roundWithAccuracy_of_normalized {s : Sign} {m : ℕ} {e : ℤ} (hm : Normalized m e) :
    roundWithAccuracy Format.binary64 s m e .exact = .finite s m e hm.pos := by
  apply roundWithAccuracy_eq (represents_exact m) (le_of_eq (target_of_normalized hm).symm) hm
  rw [sub_self, zpow_zero, mul_one]
  have := downTo_pos m e
  exact ⟨.inl (by linarith), .inl (by linarith)⟩

end SchemaLang.Number
