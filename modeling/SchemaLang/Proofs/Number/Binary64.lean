import Mathlib
import SchemaLang.Number.Binary64

/-!
# The layout of binary64 numbers

The parts that `exact` takes a number apart into determine it, and `ofParts` puts them together
again.

* `eq_ofParts`, `eq_zero_of_exact`: the number of given parts.
* `unpack_ofParts`: the parts as arithmetic sees them.
-/

namespace SchemaLang.Number

open Float.Model (Format UnpackedFloat)
open Float.Model.UnpackedFloat (Sign)

/-- The mantissa and the exponent of a number that is not zero, as they are stored. -/
structure Normalized (m : Nat) (e : Int) : Prop where
  pos : 0 < m
  lt : m < 2 ^ 53
  least : minExponent ≤ e
  greatest : e ≤ 971
  normal : 2 ^ 52 ≤ m ∨ e = minExponent

def sign (negative : Bool) : Sign := if negative then .negative else .positive

def ofParts (negative : Bool) (m : Nat) (e : Int) (h : 0 < m) : Float :=
  .ofModel (.pack (.finite (sign negative) m e h))

/-- The bits of a number that is not zero. -/
def bits (negative : Bool) (m : Nat) (e : Int) : Nat :=
  (if negative then 2 ^ 63 else 0)
    + if m < 2 ^ 52 then m else (e - minExponent + 1).toNat * 2 ^ 52 + (m - 2 ^ 52)

/-! ## Bits -/

theorem toNat_packComponents (s : Sign) (e : BitVec 11) (m : BitVec 52) :
    (UnpackedFloat.packComponents Format.binary64 s e m).toNat
      = s.toBitVec.toNat * 2 ^ 63 + e.toNat * 2 ^ 52 + m.toNat := by
  have he : e.toNat < 2 ^ 11 := e.isLt
  have hm : m.toNat < 2 ^ 52 := m.isLt
  rw [UnpackedFloat.packComponents, BitVec.toNat_append, BitVec.toNat_append,
    ← Nat.shiftLeft_add_eq_or_of_lt hm, ← Nat.shiftLeft_add_eq_or_of_lt he,
    Nat.shiftLeft_eq, Nat.shiftLeft_eq]
  omega

/-- How a number that is not zero is packed: without the leading bit of a normal mantissa. -/
theorem pack_finite {s : Sign} {m : Nat} {e : Int} (h : Normalized m e) :
    UnpackedFloat.pack Format.binary64 (.finite s m e h.pos)
      = if m < 2 ^ 52 then UnpackedFloat.packComponents Format.binary64 s 0#11 (BitVec.ofNat 52 m)
        else UnpackedFloat.packComponents Format.binary64 s
          (BitVec.ofNat 11 (e - minExponent + 1).toNat) (BitVec.ofNat 52 m) := by
  obtain ⟨hp, hl, hmin, hmax, hn⟩ := h
  simp only [minExponent] at hmin hn
  have hbias : ¬2 ^ Format.binary64.exponentBits
      ≤ (e + Format.binary64.exponentBias + Format.binary64.mantissaBitsWithoutImplicit).toNat
        + 1 := by
    show ¬2 ^ 11 ≤ (e + 1023 + 52).toNat + 1
    omega
  rw [UnpackedFloat.pack, if_neg hbias]
  by_cases hm : m < 2 ^ 52
  · have hlog : ¬m.log2 + 1 = Format.binary64.mantissaBits := by
      have := (Nat.log2_lt (Nat.ne_of_gt hp)).2 hm
      show ¬m.log2 + 1 = 53
      omega
    rw [if_neg hlog, if_pos hm]
  · have hlog : m.log2 + 1 = Format.binary64.mantissaBits := by
      have h1 := (Nat.log2_lt (Nat.ne_of_gt hp)).2 hl
      have h2 := (Nat.le_log2 (Nat.ne_of_gt hp)).2 (Nat.not_lt.1 hm)
      show m.log2 + 1 = 53
      omega
    have he : (e + Format.binary64.exponentBias
        + Format.binary64.mantissaBitsWithoutImplicit).toNat = (e - minExponent + 1).toNat := by
      show (e + 1023 + 52).toNat = (e - -1074 + 1).toNat
      omega
    rw [if_pos hlog, if_neg hm, he]

theorem toBits_ofParts {negative : Bool} {m : Nat} {e : Int} (h : Normalized m e) :
    (ofParts negative m e h.pos).toBits.toNat = bits negative m e := by
  have hs : (sign negative).toBitVec.toNat * 2 ^ 63 = if negative then 2 ^ 63 else 0 := by
    cases negative <;> rfl
  show (UnpackedFloat.pack Format.binary64 (.finite (sign negative) m e h.pos)).toNat = _
  rw [pack_finite h, bits]
  obtain ⟨hp, hl, hmin, hmax, hn⟩ := h
  have hme : minExponent = -1074 := rfl
  by_cases hm : m < 2 ^ 52
  · rw [if_pos hm, if_pos hm, toNat_packComponents, hs, BitVec.toNat_ofNat, BitVec.toNat_ofNat,
      Nat.mod_eq_of_lt hm]
    omega
  · rw [if_neg hm, if_neg hm, toNat_packComponents, hs, BitVec.toNat_ofNat, BitVec.toNat_ofNat]
    omega

/-! ## Parts -/

theorem normalMantissa_eq : normalMantissa = 2 ^ 52 := rfl

/-- The parts with the powers of two written as such. -/
theorem exact_eq (x : Float) : exact x =
    if x.toBits.toNat / normalMantissa % 2 ^ 11 = 2 ^ 11 - 1 then
      if x.toBits.toNat % normalMantissa = 0 then .infinite (decide (2 ^ 63 ≤ x.toBits.toNat))
      else .nan
    else if x.toBits.toNat / normalMantissa % 2 ^ 11 = 0 then
      .finite (decide (2 ^ 63 ≤ x.toBits.toNat)) (x.toBits.toNat % normalMantissa) minExponent
    else
      .finite (decide (2 ^ 63 ≤ x.toBits.toNat)) (normalMantissa + x.toBits.toNat % normalMantissa)
        (minExponent + (x.toBits.toNat / normalMantissa % 2 ^ 11 - 1 : Nat)) :=
  rfl

theorem toBits_of_exact {x : Float} {negative : Bool} {m : Nat} {e : Int}
    (h : exact x = .finite negative m e) (hp : 0 < m) :
    Normalized m e ∧ x.toBits.toNat = bits negative m e := by
  have hme : minExponent = -1074 := rfl
  have hlt : x.toBits.toNat < 2 ^ 64 := x.toBits.toNat_lt
  have hnm := normalMantissa_eq
  have hsplit : x.toBits.toNat = (if decide (2 ^ 63 ≤ x.toBits.toNat) then 2 ^ 63 else 0)
      + x.toBits.toNat / normalMantissa % 2 ^ 11 * 2 ^ 52 + x.toBits.toNat % normalMantissa := by
    rw [normalMantissa_eq]
    split <;> simp_all <;> omega
  have hr : x.toBits.toNat % normalMantissa < 2 ^ 52 := Nat.mod_lt _ (by decide)
  have hf : x.toBits.toNat / normalMantissa % 2 ^ 11 < 2 ^ 11 := Nat.mod_lt _ (by decide)
  rw [exact_eq] at h
  generalize x.toBits.toNat / normalMantissa % 2 ^ 11 = field at h hsplit hf
  generalize x.toBits.toNat % normalMantissa = fraction at h hsplit hr
  split at h
  · split at h <;> simp at h
  · next hmax =>
    split at h
    · next hz =>
      obtain ⟨rfl, rfl, rfl⟩ := Exact.finite.inj h
      refine ⟨⟨hp, by omega, by omega, by omega, .inr rfl⟩, ?_⟩
      rw [bits, if_pos hr]
      omega
    · next hz =>
      obtain ⟨rfl, rfl, rfl⟩ := Exact.finite.inj h
      have hmax' : field ≠ 2047 := hmax
      refine ⟨⟨hp, by omega, by omega, by omega, .inl (by omega)⟩, ?_⟩
      have hnl : ¬normalMantissa + fraction < 2 ^ 52 := by omega
      rw [bits, if_neg hnl]
      omega

theorem eq_of_toBits {x y : Float} (h : x.toBits.toNat = y.toBits.toNat) : x = y :=
  Float.toBits_inj.1 (UInt64.toNat_inj.1 h)

theorem eq_ofParts {x : Float} {negative : Bool} {m : Nat} {e : Int}
    (h : exact x = .finite negative m e) (hp : 0 < m) :
    Normalized m e ∧ x = ofParts negative m e hp := by
  obtain ⟨hn, hb⟩ := toBits_of_exact h hp
  exact ⟨hn, eq_of_toBits (hb.trans (toBits_ofParts hn).symm)⟩

theorem eq_zero_of_exact {x : Float} {negative : Bool} {e : Int}
    (h : exact x = .finite negative 0 e) : x = if negative then -0.0 else 0.0 := by
  have hlt : x.toBits.toNat < 2 ^ 64 := x.toBits.toNat_lt
  have hnm := normalMantissa_eq
  rw [exact_eq] at h
  split at h
  · split at h <;> simp at h
  · split at h
    · next hmax hz =>
      obtain ⟨hn, hf, -⟩ := Exact.finite.inj h
      rw [normalMantissa_eq] at hz hf
      apply eq_of_toBits
      cases negative with
      | true =>
        have h1 := of_decide_eq_true hn
        show x.toBits.toNat = (-0.0 : Float).toBits.toNat
        rw [show (-0.0 : Float).toBits.toNat = 2 ^ 63 by decide +kernel]
        omega
      | false =>
        have h1 := of_decide_eq_false hn
        show x.toBits.toNat = (0.0 : Float).toBits.toNat
        rw [show (0.0 : Float).toBits.toNat = 0 by decide +kernel]
        omega
    · obtain ⟨-, hf, -⟩ := Exact.finite.inj h
      omega

/-! ## Finite numbers -/

theorem toNat_unpackExponent (b : BitVec Format.binary64.numBits) :
    (UnpackedFloat.unpackExponent b).toNat = b.toNat / 2 ^ 52 % 2 ^ 11 := by
  have hx : (UnpackedFloat.unpackExponent b).toNat = (b.toNat >>> 52) % 2 ^ 11 := by
    simp [UnpackedFloat.unpackExponent]
  rw [hx, Nat.shiftRight_eq_div_pow]

theorem exists_exact {x : Float} (h : x.isFinite = true) :
    ∃ negative m e, exact x = .finite negative m e := by
  by_cases hf : x.toBits.toNat / normalMantissa % 2 ^ 11 = 2 ^ 11 - 1
  · have he : @UnpackedFloat.unpackExponent Format.binary64 x.toBits.toBitVec = -1#11 := by
      apply BitVec.eq_of_toNat_eq
      rw [toNat_unpackExponent]
      exact hf
    have hi : (UnpackedFloat.unpack Format.binary64 x.toBits.toBitVec).isFinite = true := h
    rw [UnpackedFloat.unpack] at hi
    simp only at hi
    rw [if_pos he] at hi
    split at hi <;> simp [UnpackedFloat.isFinite] at hi
  · rw [exact_eq, if_neg hf]
    split
    · exact ⟨_, _, _, rfl⟩
    · exact ⟨_, _, _, rfl⟩

/-! ## Arithmetic -/

theorem finite_congr {s : Sign} {m m' : Nat} {e e' : Int} {h : 0 < m} {h' : 0 < m'} (hm : m = m')
    (he : e = e') : UnpackedFloat.finite s m e h = .finite s m' e' h' := by
  subst hm he
  rfl

theorem unpack_pack {s : Sign} {m : Nat} {e : Int} (h : Normalized m e) :
    (Float.Model.pack (.finite s m e h.pos)).unpack = .finite s m e h.pos := by
  show UnpackedFloat.unpack Format.binary64
    (UnpackedFloat.pack Format.binary64 (.finite s m e h.pos)) = _
  rw [pack_finite h]
  have hme : minExponent = -1074 := rfl
  have hmin := h.least
  have hmax := h.greatest
  by_cases hm : m < 2 ^ 52
  · have hz : ¬BitVec.ofNat 52 m = 0#52 := fun hc => by
      have hn := congrArg BitVec.toNat hc
      have := h.pos
      rw [BitVec.toNat_ofNat, Nat.mod_eq_of_lt hm] at hn
      simp at hn
      omega
    rw [if_pos hm, UnpackedFloat.unpack]
    simp only [UnpackedFloat.unpackMantissa_packComponents,
      UnpackedFloat.unpackExponent_packComponents, UnpackedFloat.unpackSign_packComponents,
      Sign.ofBitVec_toBitVec]
    rw [if_neg (by decide), if_pos trivial, dif_neg hz]
    refine finite_congr ?_ ?_
    · rw [BitVec.toNat_ofNat, Nat.mod_eq_of_lt hm]
    · rw [h.normal.resolve_left (by omega)]
      rfl
  · have hf : (BitVec.ofNat 11 (e - minExponent + 1).toNat).toNat
        = (e - minExponent + 1).toNat := by
      rw [BitVec.toNat_ofNat]
      exact Nat.mod_eq_of_lt (by omega)
    have h1 : ¬BitVec.ofNat 11 (e - minExponent + 1).toNat = -1#11 := fun hc => by
      have hn := congrArg BitVec.toNat hc
      rw [hf] at hn
      have : (-1#11).toNat = 2047 := by decide
      omega
    have h0 : ¬BitVec.ofNat 11 (e - minExponent + 1).toNat = 0#11 := fun hc => by
      have hn := congrArg BitVec.toNat hc
      rw [hf] at hn
      simp at hn
      omega
    rw [if_neg hm, UnpackedFloat.unpack]
    simp only [UnpackedFloat.unpackMantissa_packComponents,
      UnpackedFloat.unpackExponent_packComponents, UnpackedFloat.unpackSign_packComponents,
      Sign.ofBitVec_toBitVec]
    rw [if_neg h1, if_neg h0]
    refine finite_congr ?_ ?_
    · have hl := h.lt
      rw [BitVec.toNat_append, BitVec.toNat_ofNat, BitVec.toNat_ofNat,
        ← Nat.shiftLeft_add_eq_or_of_lt (Nat.mod_lt _ (by decide)), Nat.shiftLeft_eq]
      omega
    · rw [hf]
      show ((e - minExponent + 1).toNat : Int) - 1075 = e
      omega

theorem unpack_ofParts {negative : Bool} {m : Nat} {e : Int} (h : Normalized m e) :
    (ofParts negative m e h.pos).toModel.unpack = .finite (sign negative) m e h.pos :=
  unpack_pack h

theorem neg_ofParts {m : Nat} {e : Int} (h : Normalized m e) :
    -ofParts false m e h.pos = ofParts true m e h.pos := by
  show Float.ofModel (.pack (UnpackedFloat.neg (ofParts false m e h.pos).toModel.unpack)) = _
  rw [unpack_ofParts h]
  rfl

theorem isFinite_ofParts {negative : Bool} {m : Nat} {e : Int} (h : Normalized m e) :
    (ofParts negative m e h.pos).isFinite = true := by
  show (ofParts negative m e h.pos).toModel.unpack.isFinite = true
  rw [unpack_ofParts h]
  rfl

end SchemaLang.Number
