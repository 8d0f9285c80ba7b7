import SchemaLang.Proofs.Number.Integers
import SchemaLang.Proofs.Validate.Attributes
import SchemaLang.Proofs.Validate.Equivalence

/-!
# Bounds on integers

An integer is compared with a bound as a number, so that what is compared is the integer rounded to
53 bits.  That decides the bound as the integer itself would, since rounding takes no integer past a
bound; only an integer that is rounded to the bound is taken for it.

* `Comparison.relates_rounded_iff`: rounding matters only where it ends at the bound.
* `checkAttributes_integer`: what the check of a bound says of an integer.
* `exists_taken_for_bound`: an integer that is taken for a bound that it is not.
-/

namespace SchemaLang

open Number (rational? rounded HasMantissa)

/-- An integer compares as what it is rounded to, unless that is the bound and it is not. -/
theorem Comparison.relates_rounded_iff (c : Comparison) {n : ℤ} {b : ℚ} (hb : HasMantissa b)
    (h : (rounded n : ℚ) = b → (n : ℚ) = b) : c.Relates (rounded n) b ↔ c.Relates n b := by
  have hle : (rounded n : ℚ) ≤ b ↔ (n : ℚ) ≤ b := by
    refine ⟨fun hr => ?_, Number.rounded_le hb⟩
    by_contra hn
    have hbn : b < n := not_le.1 hn
    exact hbn.ne' (h (hr.antisymm (Number.le_rounded hb hbn.le)))
  have hge : b ≤ (rounded n : ℚ) ↔ b ≤ (n : ℚ) := by
    refine ⟨fun hr => ?_, Number.le_rounded hb⟩
    by_contra hn
    have hnb : (n : ℚ) < b := not_le.1 hn
    exact hnb.ne (h ((Number.rounded_le hb hnb.le).antisymm hr))
  cases c with
  | eq => exact ⟨h, fun he => le_antisymm (hle.2 he.le) (hge.2 he.ge)⟩
  | lt => exact not_le.symm.trans (hge.not.trans not_le)
  | lte => exact hle
  | gt => exact not_le.symm.trans (hle.not.trans not_le)
  | gte => exact hge

/-- A bound is met by the integers that are rounded to numbers that meet it. -/
theorem Bound.accepts_int_iff {c : Comparison} {x : Float} {b : ℚ} (hx : rational? x = some b)
    (n : Int64) :
    (⟨.number, c, x⟩ : Bound).accepts (.int n) = true ↔ c.Relates (rounded n.toInt) b := by
  have hlow := n.le_toInt
  have hhigh := n.toInt_lt
  exact c.holds_iff_relates (Number.rational?_ofInt (by omega) (by omega)) hx

theorem checkAttributes_int_eq_ok_iff {ty : TypeRef} {a : Attributes} {n : Int64} {path : Path} :
    checkAttributes ty (some a) (.int n) path = .ok ()
      ↔ ∀ bound ∈ a.bounds, bound.accepts (.int n) = true := by
  rw [Validate.checkAttributes_eq_ok_iff, brokenBound?_eq_none_iff]
  simp [Value.isNull, Attributes.meets_iff]

theorem Attributes.bounds_setNumber (c : Comparison) (x : Float) :
    (({} : Attributes).setNumber c x).bounds = [⟨.number, c, x⟩] := by
  cases c <;> rfl

/-- An integer meets a bound exactly if the integer rounded to 53 bits compares with it in exact
arithmetic.  That is how the integer itself compares, unless it is not the bound and is rounded to
it, which takes more than 53 bits.  Where there are other bounds too, none of them makes up for this
one. -/
theorem checkAttributes_integer (ty : TypeRef) (n : Int64) (c : Comparison) {x : Float} {b : ℚ}
    (hx : rational? x = some b) (path : Path) :
    (checkAttributes ty (some (({} : Attributes).setNumber c x)) (.int n) path = .ok ()
        ↔ c.Relates (rounded n.toInt) b)
      ∧ (((rounded n.toInt : ℚ) = b → (n.toInt : ℚ) = b) →
        (checkAttributes ty (some (({} : Attributes).setNumber c x)) (.int n) path = .ok ()
          ↔ c.Relates n.toInt b))
      ∧ (n.toInt.natAbs ≤ 2 ^ 53 → rounded n.toInt = n.toInt)
      ∧ ∀ a : Attributes, a.number.get? c = some x →
        checkAttributes ty (some a) (.int n) path = .ok () → c.Relates (rounded n.toInt) b := by
  have hsingle : checkAttributes ty (some (({} : Attributes).setNumber c x)) (.int n) path = .ok ()
      ↔ c.Relates (rounded n.toInt) b := by
    rw [checkAttributes_int_eq_ok_iff, Attributes.bounds_setNumber, List.forall_mem_singleton,
      Bound.accepts_int_iff hx]
  refine ⟨hsingle, fun h => ?_, Number.rounded_of_natAbs_le, fun a ha hok => ?_⟩
  · exact hsingle.trans (c.relates_rounded_iff (Number.hasMantissa_of_rational? hx) h)
  · have hmem : (⟨.number, c, x⟩ : Bound) ∈ a.bounds :=
      Attributes.mem_bounds.2 (.inl ⟨c, x, ha, rfl⟩)
    exact (Bound.accepts_int_iff hx n).1 (checkAttributes_int_eq_ok_iff.1 hok _ hmem)

/-- Odd integers above this number are no numbers. -/
def gridStart : Float := 9007199254740992.0

theorem rational?_gridStart : rational? gridStart = some 9007199254740992 := by
  have hexact : Number.exact gridStart = .finite false (2 ^ 52) 1 := by decide +kernel
  rw [rational?, hexact]
  norm_num

/-- An integer that is rounded away from a bound is still on the same side of it. -/
theorem checkAttributes_integer_above :
    rational? gridStart = some 9007199254740992
      ∧ rounded (9007199254740995 : Int64).toInt = 9007199254740996
      ∧ checkAttributes (.builtin .int) (some (({} : Attributes).setNumber .gt gridStart))
        (.int 9007199254740995) [] = .ok () := by
  have hround : rounded (9007199254740995 : Int64).toInt = 9007199254740996 := by decide +kernel
  have hint : (9007199254740995 : Int64).toInt = 9007199254740995 := by decide +kernel
  obtain ⟨-, hexact, -, -⟩ := checkAttributes_integer (.builtin .int) 9007199254740995 .gt
    rational?_gridStart []
  refine ⟨rational?_gridStart, hround, (hexact fun h => ?_).2 ?_⟩
  · rw [hround] at h
    norm_num at h
  · rw [hint]
    norm_num [Comparison.Relates]

/-- An integer that is no number is taken for a bound next to it. -/
theorem exists_taken_for_bound :
    rational? gridStart = some 9007199254740992
      ∧ checkAttributes (.builtin .int) (some (({} : Attributes).setNumber .eq gridStart))
        (.int 9007199254740993) [] = .ok ()
      ∧ ¬Comparison.eq.Relates (9007199254740993 : Int64).toInt 9007199254740992 := by
  have hint : (9007199254740993 : Int64).toInt = 9007199254740993 := by decide +kernel
  refine ⟨rational?_gridStart, ?_, ?_⟩
  · have hround : rounded (9007199254740993 : Int64).toInt = 9007199254740992 := by decide +kernel
    rw [checkAttributes_int_eq_ok_iff, Attributes.bounds_setNumber, List.forall_mem_singleton,
      Bound.accepts_int_iff rational?_gridStart, hround]
    norm_num [Comparison.Relates]
  · rw [hint]
    norm_num [Comparison.Relates]

end SchemaLang
