import SchemaLang.Proofs.Number.FloatText

/-!
# Decimals are numbers

What is no number comes from a name or from infinities and zeros that are multiplied or divided.
A decimal is read from a whole number and a power of ten, neither of them such a case, so that
digits always stand for a number that can be compared, if only for an infinite one.

* `unpack_pack_ne`: packing makes a number of every number.
* `isNaN_nearest`, `isNaN_of_decimal?`: decimals are numbers.
* `isNaN_of_float?_signed`: so are numerals with a sign.
-/

namespace SchemaLang.Number

open Float.Model (Format UnpackedFloat)
open Float.Model.UnpackedFloat

theorem isNaN_eq_false_iff {x : Float} :
    x.isNaN = false ↔ x.toModel.unpack ≠ .notANumber := by
  show UnpackedFloat.isNaN x.toModel.unpack = false ↔ _
  cases x.toModel.unpack <;> simp [UnpackedFloat.isNaN]

/-! ## Packing -/

theorem unpack_packComponents_ne {s : Sign} {e : BitVec 11} {m : BitVec 52} (h : e ≠ -1#11) :
    UnpackedFloat.unpack Format.binary64 (packComponents Format.binary64 s e m) ≠ .notANumber := by
  rw [UnpackedFloat.unpack]
  simp only [unpackMantissa_packComponents, unpackExponent_packComponents]
  rw [if_neg h]
  split
  · split <;> simp
  · simp

/-- Only what is no number is packed with the bits of what is none. -/
theorem unpack_pack_ne {u : UnpackedFloat} (h : u ≠ .notANumber) :
    (Float.Model.pack u).unpack ≠ .notANumber := by
  show UnpackedFloat.unpack Format.binary64 (UnpackedFloat.pack Format.binary64 u) ≠ _
  have hinf : ∀ s, UnpackedFloat.unpack Format.binary64 (packedInfinity Format.binary64 s)
      ≠ .notANumber := by
    intro s
    cases s <;> exact UnpackedFloat.noConfusion
  cases u with
  | notANumber => exact absurd rfl h
  | infinity s => exact hinf s
  | zero s => exact unpack_packComponents_ne (by decide)
  | finite s m e hm =>
    rw [UnpackedFloat.pack]
    dsimp only
    split
    · exact hinf s
    · next hbias =>
      split
      · refine unpack_packComponents_ne ?_
        intro hc
        have hn := congrArg BitVec.toNat hc
        rw [BitVec.toNat_ofNat] at hn
        have hlt : (e + Format.binary64.exponentBias
            + Format.binary64.mantissaBitsWithoutImplicit).toNat + 1 < 2 ^ 11 :=
          Nat.not_le.1 hbias
        rw [Nat.mod_eq_of_lt (show _ < 2 ^ Format.binary64.exponentBits from by
          show _ < 2 ^ 11
          omega)] at hn
        have h1 : (-1#11).toNat = 2047 := by decide
        omega
      · exact unpack_packComponents_ne (by decide)

theorem isNaN_neg {x : Float} (h : x.isNaN = false) : (-x).isNaN = false := by
  rw [isNaN_eq_false_iff] at h ⊢
  refine unpack_pack_ne ?_
  cases hu : x.toModel.unpack with
  | notANumber => exact absurd hu h
  | _ => exact UnpackedFloat.noConfusion

/-! ## Products and quotients of what is finite -/

theorem roundWithAccuracy_ne (s : Sign) (m : ℕ) (e : ℤ) (a : Accuracy) :
    roundWithAccuracy Format.binary64 s m e a ≠ .notANumber := by
  rw [roundWithAccuracy]
  dsimp only
  split <;> exact UnpackedFloat.noConfusion

theorem mul_finite_ne {x : UnpackedFloat} {s : Sign} {m : ℕ} {e : ℤ} {h : 0 < m}
    (hx : x.isFinite = true) :
    UnpackedFloat.mul Format.binary64 x (.finite s m e h) ≠ .notANumber := by
  cases x with
  | notANumber => simp [UnpackedFloat.isFinite] at hx
  | infinity t => simp [UnpackedFloat.isFinite] at hx
  | zero t => exact UnpackedFloat.noConfusion
  | finite t m' e' h' => exact roundWithAccuracy_ne _ _ _ _

theorem div_finite_ne {x : UnpackedFloat} {s : Sign} {m : ℕ} {e : ℤ} {h : 0 < m}
    (hx : x.isFinite = true) :
    UnpackedFloat.div Format.binary64 x (.finite s m e h) ≠ .notANumber := by
  cases x with
  | notANumber => simp [UnpackedFloat.isFinite] at hx
  | infinity t => simp [UnpackedFloat.isFinite] at hx
  | zero t => exact UnpackedFloat.noConfusion
  | finite t m' e' h' => exact roundWithAccuracy_ne _ _ _ _

theorem isNaN_mul {x y : Float} {n : ℕ} (hx : x.isFinite = true) (hy : IsWhole y n) :
    (x * y).isNaN = false := by
  obtain ⟨m, e, h, hu, -, -⟩ := hy
  rw [isNaN_eq_false_iff]
  refine unpack_pack_ne ?_
  rw [hu]
  exact mul_finite_ne hx

theorem isNaN_div {x y : Float} {n : ℕ} (hx : x.isFinite = true) (hy : IsWhole y n) :
    (x / y).isNaN = false := by
  obtain ⟨m, e, h, hu, -, -⟩ := hy
  rw [isNaN_eq_false_iff]
  refine unpack_pack_ne ?_
  rw [hu]
  exact div_finite_ne hx

/-! ## Decimals -/

theorem isFinite_toFloat {n : ℕ} (h : n < 2 ^ 53) : n.toUInt64.toFloat.isFinite = true := by
  rcases Nat.eq_zero_or_pos n with rfl | h0
  · decide +kernel
  · obtain ⟨m, e, hm, hu, -, -⟩ := isWhole_toFloat h0 h
    show UnpackedFloat.isFinite n.toUInt64.toFloat.toModel.unpack = true
    rw [hu]
    rfl

theorem ofScientific_ne (n : ℕ) (k : ℤ) :
    UnpackedFloat.ofScientific Format.binary64 n k ≠ .notANumber := by
  rw [UnpackedFloat.ofScientific]
  split
  · exact UnpackedFloat.noConfusion
  · split
    · exact UnpackedFloat.noConfusion
    · split
      · exact UnpackedFloat.noConfusion
      · split
        · exact mul_finite_ne rfl
        · exact div_finite_ne rfl

/-- A whole number times a power of ten is a number, whichever way it is computed. -/
theorem isNaN_nearest (n : ℕ) (k : ℤ) : (nearest n k).isNaN = false := by
  rw [nearest, Float.ofScientific]
  by_cases hf : n < 2 ^ 53 ∧ k.natAbs ≤ 22
  · rw [dif_pos hf]
    have hx := isFinite_toFloat hf.1
    have hp := isWhole_power ⟨k.natAbs, Nat.lt_succ_of_le hf.2⟩
    dsimp only
    split
    · exact isNaN_div hx hp
    · exact isNaN_mul hx hp
  · rw [dif_neg hf, isNaN_eq_false_iff]
    exact unpack_pack_ne (ofScientific_ne _ _)

theorem isNaN_of_decimal? {cs : List Char} {x : Float} (h : decimal? cs = some x) :
    x.isNaN = false := by
  simp only [decimal?, Option.ite_none_left_eq_some, Option.map_eq_some_iff] at h
  obtain ⟨-, e, -, rfl⟩ := h
  exact isNaN_nearest _ _

/-- A text that starts with a digit, after a sign or without one, is read as a number if at all. -/
theorem isNaN_of_float?_signed {negative : Bool} {cs : List Char} {x : Float}
    (hd : ∃ c rest, cs = c :: rest ∧ c.isDigit = true)
    (h : float? (signed negative cs) = some x) : x.isNaN = false := by
  rw [float?_signed negative hd] at h
  obtain ⟨y, hy, rfl⟩ := Option.map_eq_some_iff.1 h
  have hn := isNaN_of_decimal? hy
  cases negative with
  | true => exact isNaN_neg hn
  | false => exact hn

end SchemaLang.Number
