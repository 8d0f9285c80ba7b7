import SchemaLang.Number.Shortest
import SchemaLang.Proofs.Number.Rounding

/-!
# The shortest decimal is read back

The decimal that is written lies where every decimal is read as the number, and with seventeen
digits there always is such a decimal: its grid is finer than the distance of the two bounds.

* `contains_iff_nearest`: between the bounds is what is nearest to the number.
* `contains_shortest`: the decimal that is written is between the bounds.
-/

namespace SchemaLang.Number

@[push_cast]
theorem cast_natPow (b n : ℕ) : (Nat.pow b n : ℚ) = b ^ n := Nat.cast_pow b n

theorem tenTo_eq (k : ℤ) : ((tenTo k).1 : ℚ) = 10 ^ k * (tenTo k).2 := by
  have hk : k = k.toNat - (-k).toNat := by omega
  have h : (10 : ℚ) ^ k = 10 ^ k.toNat / 10 ^ (-k).toNat := by
    conv_lhs => rw [hk]
    rw [zpow_sub₀ (by norm_num), zpow_natCast, zpow_natCast]
  rw [h, tenTo]
  push_cast
  rw [div_mul_cancel₀]
  positivity

theorem tenTo_pos (k : ℤ) : 0 < (tenTo k).2 := Nat.pow_pos (by decide)

/-- Whether a decimal lies between the bounds, in rational numbers. -/
theorem Rounding.contains_iff {r : Rounding} {c : ℕ} {k : ℤ} :
    r.contains c k = true ↔
      ((r.low : ℚ) < c * 10 ^ k * r.den
          ∨ ((r.low : ℚ) = c * 10 ^ k * r.den ∧ r.closed = true))
        ∧ ((c : ℚ) * 10 ^ k * r.den < r.high
          ∨ ((c : ℚ) * 10 ^ k * r.den = r.high ∧ r.closed = true)) := by
  have hb : (0 : ℚ) < (tenTo k).2 := by exact_mod_cast tenTo_pos k
  have hv : ((c * (tenTo k).1 * r.den : ℕ) : ℚ) = c * 10 ^ k * r.den * (tenTo k).2 := by
    push_cast
    rw [tenTo_eq]
    ring
  have hll : r.low * (tenTo k).2 < c * (tenTo k).1 * r.den
      ↔ (r.low : ℚ) < c * 10 ^ k * r.den := by
    rw [← Nat.cast_lt (α := ℚ), hv]
    push_cast
    exact mul_lt_mul_iff_left₀ hb
  have hle : r.low * (tenTo k).2 ≤ c * (tenTo k).1 * r.den
      ↔ (r.low : ℚ) ≤ c * 10 ^ k * r.den := by
    rw [← Nat.cast_le (α := ℚ), hv]
    push_cast
    exact mul_le_mul_iff_left₀ hb
  have hhl : c * (tenTo k).1 * r.den < r.high * (tenTo k).2
      ↔ (c : ℚ) * 10 ^ k * r.den < r.high := by
    rw [← Nat.cast_lt (α := ℚ), hv]
    push_cast
    exact mul_lt_mul_iff_left₀ hb
  have hhe : c * (tenTo k).1 * r.den ≤ r.high * (tenTo k).2
      ↔ (c : ℚ) * 10 ^ k * r.den ≤ r.high := by
    rw [← Nat.cast_le (α := ℚ), hv]
    push_cast
    exact mul_le_mul_iff_left₀ hb
  rw [contains]
  cases hc : r.closed with
  | true =>
    simp only [if_true, Bool.and_eq_true, decide_eq_true_eq, hle, hhe, and_true, le_iff_lt_or_eq]
  | false =>
    simp only [Bool.false_eq_true, if_false, Bool.and_eq_true, decide_eq_true_eq, hll, hhl,
      and_false, or_false]

/-! ## The bounds of a number -/

section Bounds

variable {m : ℕ} {e : ℤ}

/-- One unit of the last place, over the denominator of the bounds. -/
def unit (m : ℕ) (e : ℤ) : ℚ := 2 ^ e * (rounding m e).den

theorem den_pos (m : ℕ) (e : ℤ) : 0 < (rounding m e).den :=
  Nat.mul_pos (by decide) (Nat.pow_pos (by decide))

theorem unit_pos (m : ℕ) (e : ℤ) : 0 < unit m e :=
  mul_pos (zpow_pos (by norm_num) e) (by exact_mod_cast den_pos m e)

theorem unit_eq (m : ℕ) (e : ℤ) : unit m e = 4 * 2 ^ e.toNat := by
  have he : e = e.toNat - (-e).toNat := by omega
  have h : (2 : ℚ) ^ e = 2 ^ e.toNat / 2 ^ (-e).toNat := by
    conv_lhs => rw [he]
    rw [zpow_sub₀ (by norm_num), zpow_natCast, zpow_natCast]
  rw [unit, h, rounding]
  push_cast
  rw [div_mul_eq_mul_div, div_eq_iff (by positivity)]
  ring

theorem mid_eq (m : ℕ) (e : ℤ) : ((rounding m e).mid : ℚ) = m * unit m e := by
  rw [unit_eq, rounding]
  push_cast
  ring

theorem high_eq (m : ℕ) (e : ℤ) : ((rounding m e).high : ℚ) = (m + 1 / 2) * unit m e := by
  rw [unit_eq, rounding]
  push_cast
  ring

theorem low_eq (h0 : 0 < m) (e : ℤ) :
    ((rounding m e).low : ℚ) = (m - downTo m e) * unit m e := by
  have hn : normalMantissa = 2 ^ 52 := rfl
  rw [unit_eq, rounding, downTo, hn]
  by_cases hd : m = 2 ^ 52 ∧ minExponent < e
  · simp only [if_pos hd]
    rw [Nat.cast_mul, Nat.cast_sub (by omega)]
    push_cast
    ring
  · simp only [if_neg hd]
    rw [Nat.cast_mul, Nat.cast_sub (by omega)]
    push_cast
    ring

theorem closed_iff (m : ℕ) (e : ℤ) : (rounding m e).closed = true ↔ m % 2 = 0 := by
  rw [rounding]
  exact beq_iff_eq

/-- A decimal, in units of the last place. -/
theorem decimal_eq (m c : ℕ) (e k : ℤ) :
    (c : ℚ) * 10 ^ k * (rounding m e).den = c * 10 ^ k * 2 ^ (-e) * unit m e := by
  rw [unit, mul_assoc _ ((2 : ℚ) ^ (-e)), ← mul_assoc ((2 : ℚ) ^ (-e)), ← zpow_add₀ (by norm_num),
    neg_add_cancel, zpow_zero, one_mul]

theorem contains_iff_nearest (h0 : 0 < m) {c : ℕ} {k : ℤ} :
    (rounding m e).contains c k = true ↔ Nearest m (downTo m e) (c * 10 ^ k * 2 ^ (-e)) := by
  have hu := unit_pos m e
  rw [Rounding.contains_iff, decimal_eq, low_eq h0, high_eq, closed_iff,
    mul_lt_mul_iff_left₀ hu, mul_lt_mul_iff_left₀ hu, mul_left_inj' hu.ne', mul_left_inj' hu.ne']
  exact ⟨fun h => ⟨h.1, h.2⟩, fun h => ⟨h.low, h.high⟩⟩

/-! ## The grid of seventeen digits -/

theorem one_le_scaled (hm : Normalized m e) : (1 : ℚ) ≤ m * 2 ^ e * 10 ^ farPlace := by
  have hm1 : (1 : ℚ) ≤ m := by exact_mod_cast hm.pos
  have hten : (2 : ℚ) ^ 1074 ≤ 10 ^ farPlace := by
    calc (2 : ℚ) ^ 1074 ≤ 2 ^ (33 * 33) := pow_le_pow_right₀ (by norm_num) (by norm_num)
      _ = (2 ^ 33) ^ 33 := pow_mul _ _ _
      _ ≤ (10 ^ 10) ^ 33 := pow_le_pow_left₀ (by norm_num) (by norm_num) _
      _ = 10 ^ farPlace := (pow_mul _ _ _).symm
  have hmin : (2 : ℚ) ^ (-1074 : ℤ) ≤ 2 ^ e := zpow_le_zpow_right₀ (by norm_num) hm.least
  have hone : (2 : ℚ) ^ (-1074 : ℤ) * 2 ^ 1074 = 1 := by
    rw [← zpow_natCast, ← zpow_add₀ (by norm_num)]
    rfl
  calc (1 : ℚ) = 1 * 2 ^ (-1074 : ℤ) * 2 ^ 1074 := by rw [one_mul, hone]
    _ ≤ m * 2 ^ e * 10 ^ farPlace := by gcongr

/-- The first digit does not stand before the place that is computed for it. -/
theorem place_le (hm : Normalized m e) :
    (10 : ℚ) ^ ((rounding m e).place - 1) ≤ m * 2 ^ e := by
  obtain ⟨n, hn⟩ : ∃ n, n = (rounding m e).mid * Nat.pow 10 farPlace / (rounding m e).den :=
    ⟨_, rfl⟩
  have hplace : (rounding m e).place = (Nat.toDigits 10 n).length - farPlace := by
    rw [Rounding.place, ← hn]
  have hden : (0 : ℚ) < (rounding m e).den := by exact_mod_cast den_pos m e
  have hle : (n : ℚ) ≤ m * 2 ^ e * 10 ^ farPlace := by
    have hq : ((n * (rounding m e).den : ℕ) : ℚ)
        ≤ ((rounding m e).mid * Nat.pow 10 farPlace : ℕ) :=
      Nat.cast_le.2 (hn ▸ Nat.div_mul_le_self _ _)
    rw [Nat.cast_mul, Nat.cast_mul, cast_natPow, Nat.cast_ofNat, mid_eq, unit] at hq
    refine le_of_mul_le_mul_right (hq.trans_eq ?_) hden
    rw [← mul_assoc, mul_right_comm]
  have hpos : 0 < n := by
    rw [hn]
    refine Nat.div_pos ?_ (den_pos m e)
    have h : ((rounding m e).den : ℚ) ≤ (rounding m e).mid * 10 ^ farPlace := by
      rw [mid_eq, unit]
      calc ((rounding m e).den : ℚ) = 1 * (rounding m e).den := (one_mul _).symm
        _ ≤ m * 2 ^ e * 10 ^ farPlace * (rounding m e).den :=
          mul_le_mul_of_nonneg_right (one_le_scaled hm) hden.le
        _ = m * (2 ^ e * (rounding m e).den) * 10 ^ farPlace := by
          rw [mul_right_comm, mul_assoc (m : ℚ)]
    rw [← Nat.cast_le (α := ℚ), Nat.cast_mul, cast_natPow, Nat.cast_ofNat]
    exact h
  obtain ⟨l, hl⟩ : ∃ l, (Nat.toDigits 10 n).length = l + 1 :=
    Nat.exists_eq_succ_of_ne_zero (by simp [Nat.toDigits_ne_nil])
  have hten : 10 ^ l ≤ n := by
    rcases Nat.eq_zero_or_pos l with rfl | h0
    · exact hpos
    · by_contra hc
      have := (Nat.length_toDigits_le_iff (b := 10) (by decide) h0).2 (Nat.lt_of_not_le hc)
      omega
  have hexp : (rounding m e).place - 1 = l - farPlace := by
    rw [hplace, hl]
    push_cast
    ring
  have hq : (10 : ℚ) ^ l ≤ n := by exact_mod_cast hten
  rw [hexp, zpow_sub₀ (by norm_num), div_le_iff₀ (by positivity), zpow_natCast]
  exact_mod_cast hq.trans hle

/-- With seventeen digits the grid is finer than the bounds are apart. -/
theorem grid_lt (hm : Normalized m e) :
    (10 : ℚ) ^ ((rounding m e).place - 17) * 2 ^ (-e) < downTo m e + 1 / 2 := by
  have hsplit : (10 : ℚ) ^ ((rounding m e).place - 17) * 10 ^ 16
      = 10 ^ ((rounding m e).place - 1) := by
    rw [← zpow_natCast, ← zpow_add₀ (by norm_num)]
    congr 1
    omega
  have hcancel : (2 : ℚ) ^ e * 2 ^ (-e) = 1 := by
    rw [← zpow_add₀ (by norm_num), add_neg_cancel, zpow_zero]
  have hle : (10 : ℚ) ^ ((rounding m e).place - 17) * 2 ^ (-e) * 10 ^ 16 ≤ m := by
    calc (10 : ℚ) ^ ((rounding m e).place - 17) * 2 ^ (-e) * 10 ^ 16
        = 10 ^ ((rounding m e).place - 1) * 2 ^ (-e) := by
          rw [← hsplit]
          ring
      _ ≤ m * 2 ^ e * 2 ^ (-e) :=
          mul_le_mul_of_nonneg_right (place_le hm) (zpow_nonneg (by norm_num) _)
      _ = m := by rw [mul_assoc, hcancel, mul_one]
  have hlt : (m : ℚ) < 2 ^ 53 := by exact_mod_cast hm.lt
  generalize (10 : ℚ) ^ ((rounding m e).place - 17) * 2 ^ (-e) = grid at hle
  rw [downTo]
  split
  · next h =>
    have hm52 : (m : ℚ) = 2 ^ 52 := by exact_mod_cast h.1
    norm_num at hm52 ⊢
    linarith
  · linarith

/-- The number lies between two neighbours on a grid. -/
theorem floor_bounds (m : ℕ) (e k : ℤ) {f : ℕ}
    (hf : f = (rounding m e).mid * (tenTo k).2 / ((rounding m e).den * (tenTo k).1)) :
    (f : ℚ) * 10 ^ k * 2 ^ (-e) ≤ m ∧ (m : ℚ) < (f + 1 : ℕ) * 10 ^ k * 2 ^ (-e) := by
  have hu := unit_pos m e
  have hb : (0 : ℚ) < (tenTo k).2 := by exact_mod_cast tenTo_pos k
  have ha : 0 < (tenTo k).1 := Nat.pow_pos (by decide)
  have hscale : ∀ c : ℕ, ((c * ((rounding m e).den * (tenTo k).1) : ℕ) : ℚ)
      = c * 10 ^ k * 2 ^ (-e) * unit m e * (tenTo k).2 := by
    intro c
    rw [← decimal_eq]
    push_cast
    rw [tenTo_eq]
    ring
  have hmid : (((rounding m e).mid * (tenTo k).2 : ℕ) : ℚ) = m * unit m e * (tenTo k).2 := by
    rw [Nat.cast_mul, mid_eq]
  constructor
  · have h := Nat.div_mul_le_self ((rounding m e).mid * (tenTo k).2)
      ((rounding m e).den * (tenTo k).1)
    rw [← hf, ← Nat.cast_le (α := ℚ), hscale, hmid, mul_le_mul_iff_left₀ hb,
      mul_le_mul_iff_left₀ hu] at h
    exact h
  · have h := Nat.lt_mul_div_succ ((rounding m e).mid * (tenTo k).2)
      (Nat.mul_pos (den_pos m e) ha)
    rw [← hf, Nat.mul_comm _ (f + 1), ← Nat.cast_lt (α := ℚ), hscale, hmid, mul_lt_mul_iff_left₀ hb,
      mul_lt_mul_iff_left₀ hu] at h
    exact h

/-- Of the two neighbours on the grid one is between the bounds. -/
theorem exists_onGrid? (hm : Normalized m e) :
    ∃ c, (rounding m e).onGrid? ((rounding m e).place - 17) = some c := by
  obtain ⟨f, hf⟩ : ∃ f, f = (rounding m e).mid * (tenTo ((rounding m e).place - 17)).2
      / ((rounding m e).den * (tenTo ((rounding m e).place - 17)).1) := ⟨_, rfl⟩
  obtain ⟨hlow, hhigh⟩ := floor_bounds m e _ hf
  have hgrid := grid_lt hm
  have hd := downTo_pos m e
  have hor : (rounding m e).contains f ((rounding m e).place - 17) = true
      ∨ (rounding m e).contains (f + 1) ((rounding m e).place - 17) = true := by
    rw [contains_iff_nearest hm.pos, contains_iff_nearest hm.pos]
    by_cases hl : (m : ℚ) - downTo m e
        < f * 10 ^ ((rounding m e).place - 17) * 2 ^ (-e)
    · exact .inl ⟨.inl hl, .inl (by linarith)⟩
    · refine .inr ⟨.inl (by linarith), .inl ?_⟩
      rw [Nat.cast_add, Nat.cast_one, mul_assoc, add_mul, one_mul, ← mul_assoc]
      linarith
  simp only [Rounding.onGrid?, ← hf]
  split
  · split
    · exact ⟨_, rfl⟩
    · split <;> exact ⟨_, rfl⟩
  · exact ⟨_, rfl⟩
  · exact ⟨_, rfl⟩
  · next h0 h1 => simp [h0, h1] at hor

theorem contains_of_onGrid? {r : Rounding} {c : ℕ} {k : ℤ} (h : r.onGrid? k = some c) :
    r.contains c k = true := by
  simp only [Rounding.onGrid?] at h
  split at h
  · next h0 h1 =>
    split at h
    · exact Option.some.inj h ▸ h0
    · split at h
      · exact Option.some.inj h ▸ h1
      · rcases Nat.mod_two_eq_zero_or_one (r.mid * (tenTo k).2 / (r.den * (tenTo k).1)) with he | he
        · rw [he] at h
          exact Option.some.inj h ▸ h0
        · rw [he] at h
          exact Option.some.inj h ▸ h1
  · next h0 _ => exact Option.some.inj h ▸ h0
  · next _ h1 => exact Option.some.inj h ▸ h1
  · simp at h

theorem contains_shortest (hm : Normalized m e) :
    (rounding m e).contains (rounding m e).shortest.1 (rounding m e).shortest.2 = true := by
  obtain ⟨c, hc⟩ := exists_onGrid? hm
  rw [Rounding.shortest]
  dsimp only
  cases hs : (List.range 17).findSome? fun (n : ℕ) =>
      ((rounding m e).onGrid? ((rounding m e).place - (n + 1))).map fun c =>
        (c, (rounding m e).place - (n + 1)) with
  | none =>
    have h := List.findSome?_eq_none_iff.1 hs 16 (by decide)
    rw [Option.map_eq_none_iff] at h
    have h17 : (rounding m e).onGrid? ((rounding m e).place - 17) = none := h
    simp [h17] at hc
  | some p =>
    obtain ⟨n, -, hn⟩ := List.exists_of_findSome?_eq_some hs
    obtain ⟨c, hc, rfl⟩ := Option.map_eq_some_iff.1 hn
    exact contains_of_onGrid? hc

end Bounds

end SchemaLang.Number
