import SchemaLang.Json.Number
import SchemaLang.Json.Printer
import SchemaLang.Proofs.Number.Digits
import SchemaLang.Proofs.Outcome

/-!
# Numbers in JSON text come back

A number is read up to the first character that it cannot go on with, so that what follows it does
not matter if it begins with another one.  Whole numbers of 64 bits come back from their digits.  Of
the other numbers those come back whose digits, taken as a whole number and divided by a power of
ten, are rounded to them, which not all are.

* `Json.readNumber_append`: a number is read in the same way before anything that ends it.
* `Json.readNumber_integerText`: whole numbers come back.
* `Json.exists_not_readsBack`: not every finite number does.
-/

namespace SchemaLang.Json

open Number (NoDigit)

/-! ## Where a number ends -/

/-- A text that no number goes on with. -/
def EndsNumber (cs : List Char) : Prop :=
  ∀ c, cs.head? = some c → c.isDigit = false ∧ c ≠ '.' ∧ c ≠ 'e' ∧ c ≠ 'E'

theorem endsNumber_nil : EndsNumber [] := by
  intro c hc
  simp at hc

theorem endsNumber_cons {c : Char} {cs : List Char}
    (h : c.isDigit = false ∧ c ≠ '.' ∧ c ≠ 'e' ∧ c ≠ 'E') : EndsNumber (c :: cs) := by
  intro d hd
  cases hd
  exact h

variable {cs r rest : List Char}

theorem EndsNumber.noDigit (h : EndsNumber rest) : NoDigit rest := fun c hc => (h c hc).1

theorem takeDigits_append (h : NoDigit rest) :
    takeDigits (cs ++ rest) = ((takeDigits cs).1, (takeDigits cs).2 ++ rest) := by
  induction cs with
  | nil =>
    have hd : ∀ c ∈ ([] : List Char), c.isDigit = true := by simp
    have htake := Number.takeWhile_isDigit hd h
    have hdrop := Number.dropWhile_isDigit hd h
    rw [List.nil_append] at htake hdrop
    rw [List.nil_append, takeDigits, htake, hdrop]
    rfl
  | cons c cs ih =>
    by_cases hc : c.isDigit = true
    · simp only [takeDigits, Prod.mk.injEq] at ih
      simp [takeDigits, hc, ih]
    · simp [takeDigits, hc]

theorem readFraction_of_ne (h : ∀ tail, cs ≠ '.' :: tail) : readFraction cs = .ok (none, cs) := by
  rw [readFraction]
  exact h

theorem readFraction_append {o : Option (List Char)} (h : readFraction cs = .ok (o, r))
    (hr : EndsNumber rest) : readFraction (cs ++ rest) = .ok (o, r ++ rest) := by
  by_cases hdot : ∃ tail, cs = '.' :: tail
  · obtain ⟨tail, rfl⟩ := hdot
    rw [readFraction] at h
    rw [List.cons_append, readFraction, takeDigits_append hr.noDigit]
    generalize takeDigits tail = p at h ⊢
    obtain ⟨digits, tail⟩ := p
    cases digits with
    | nil => cases tail <;> simp at h
    | cons d digits =>
      cases h
      rfl
  · have hne : ∀ tail, cs ≠ '.' :: tail := fun tail he => hdot ⟨tail, he⟩
    rw [readFraction_of_ne hne] at h
    cases h
    refine readFraction_of_ne fun tail he => ?_
    cases cs with
    | nil => exact (hr '.' (by rw [← List.nil_append rest, he]; rfl)).2.1 rfl
    | cons c cs => exact hne cs (by rw [(List.cons.inj he).1])

theorem readExponentDigits_append {negative : Bool} {o : Option Int}
    (h : readExponentDigits negative cs = .ok (o, r)) (hr : EndsNumber rest) :
    readExponentDigits negative (cs ++ rest) = .ok (o, r ++ rest) := by
  rw [readExponentDigits] at h
  rw [readExponentDigits, takeDigits_append hr.noDigit]
  generalize takeDigits cs = p at h ⊢
  obtain ⟨digits, tail⟩ := p
  cases digits with
  | nil => cases tail <;> simp at h
  | cons d digits =>
    cases h
    rfl

theorem readExponent_of_ne {c : Char} (hc : ¬(c = 'e' ∨ c = 'E')) (tail : List Char) :
    readExponent (c :: tail) = .ok (none, c :: tail) := by
  unfold readExponent
  exact if_neg hc

/-- What follows the mark of an exponent: a sign and digits, or digits. -/
theorem readExponent_mark {c : Char} (hc : c = 'e' ∨ c = 'E') (tail : List Char) :
    readExponent (c :: tail) = match tail with
      | '-' :: tail => readExponentDigits true tail
      | '+' :: tail => readExponentDigits false tail
      | tail => readExponentDigits false tail := by
  unfold readExponent
  exact if_pos hc

theorem readExponent_append {o : Option Int} (h : readExponent cs = .ok (o, r))
    (hr : EndsNumber rest) : readExponent (cs ++ rest) = .ok (o, r ++ rest) := by
  cases cs with
  | nil =>
    cases h
    cases rest with
    | nil => rfl
    | cons c rest =>
      obtain ⟨-, -, he, hE⟩ := hr c rfl
      exact readExponent_of_ne (not_or.2 ⟨he, hE⟩) rest
  | cons c cs =>
    by_cases hc : c = 'e' ∨ c = 'E'
    · rw [readExponent_mark hc] at h
      rw [List.cons_append, readExponent_mark hc]
      split at h
      · exact readExponentDigits_append h hr
      · exact readExponentDigits_append h hr
      · next hminus hplus =>
        cases cs with
        | nil => simp [readExponentDigits, takeDigits] at h
        | cons d cs =>
          have hd : d ≠ '-' ∧ d ≠ '+' :=
            ⟨fun he => hminus cs (by rw [he]), fun he => hplus cs (by rw [he])⟩
          rw [List.cons_append]
          split
          · next he => exact absurd (List.cons.inj he).1 hd.1
          · next he => exact absurd (List.cons.inj he).1 hd.2
          · exact readExponentDigits_append h hr
    · rw [readExponent_of_ne hc] at h
      cases h
      exact readExponent_of_ne hc (cs ++ rest)

theorem readUnsigned_append {negative : Bool} {j : Json} (h : readUnsigned negative cs = .ok (j, r))
    (hr : EndsNumber rest) : readUnsigned negative (cs ++ rest) = .ok (j, r ++ rest) := by
  rw [readUnsigned] at h ⊢
  rw [takeDigits_append hr.noDigit]
  generalize takeDigits cs = p at h ⊢
  obtain ⟨digits, tail⟩ := p
  simp only at h ⊢
  split at h
  · simp at h
  · simp at h
  · next hne hzero =>
    obtain ⟨⟨fraction, r₁⟩, hf, h⟩ := bind_eq_ok_iff.1 h
    obtain ⟨⟨exponent, r₂⟩, he, h⟩ := bind_eq_ok_iff.1 h
    simp only [readFraction_append hf hr, bind, Except.bind, readExponent_append he hr]
    simp only at h
    split at h
    · next hwhole =>
      rw [if_pos hwhole]
      cases h
      rfl
    · next hwhole =>
      rw [if_neg hwhole]
      split at h
      · simp at h
      · cases h
        rfl

theorem readNumber_of_ne {c : Char} (hc : c ≠ '-') (tail : List Char) :
    readNumber (c :: tail) = readUnsigned false (c :: tail) := by
  unfold readNumber
  split
  · next he => exact absurd (List.cons.inj he).1 hc
  · rfl

/-- A number is read in the same way before anything that ends it. -/
theorem readNumber_append {j : Json} (h : readNumber cs = .ok (j, r)) (hr : EndsNumber rest) :
    readNumber (cs ++ rest) = .ok (j, r ++ rest) := by
  cases cs with
  | nil => simp [readNumber, readUnsigned, takeDigits] at h
  | cons c cs =>
    by_cases hc : c = '-'
    · subst hc
      exact readUnsigned_append h hr
    · rw [readNumber_of_ne hc] at h
      rw [List.cons_append, readNumber_of_ne hc]
      exact readUnsigned_append h hr

/-- A number begins with a digit or a sign. -/
theorem exists_of_readNumber {j : Json} (h : readNumber cs = .ok (j, r)) :
    ∃ c tail, cs = c :: tail ∧ (c = '-' ∨ c.isDigit = true) := by
  cases cs with
  | nil => simp [readNumber, readUnsigned, takeDigits] at h
  | cons c cs =>
    refine ⟨c, cs, rfl, ?_⟩
    by_cases hsign : c = '-'
    · exact .inl hsign
    · refine .inr ?_
      by_cases hdigit : c.isDigit = true
      · exact hdigit
      · have htake : takeDigits (c :: cs) = ([], c :: cs) := by simp [takeDigits, hdigit]
        rw [readNumber_of_ne hsign, readUnsigned, htake] at h
        simp at h

/-! ## Whole numbers -/

/-- The digits of a number do not begin with a zero and go on. -/
theorem toDigits_ne_zero_cons (n : Nat) (c : Char) (tail : List Char) :
    Nat.toDigits 10 n ≠ '0' :: c :: tail := by
  induction n using Nat.strongRecOn generalizing c tail with
  | ind n ih =>
    intro h
    by_cases hn : n < 10
    · rw [Nat.toDigits_of_lt_base hn] at h
      simp at h
    · rw [Nat.toDigits_of_base_le (by decide) (by omega)] at h
      have hrest := ih (n / 10) (by omega)
      have hvalue := Number.digitsValue_toDigits (n / 10)
      cases hd : Nat.toDigits 10 (n / 10) with
      | nil => exact Nat.toDigits_ne_nil hd
      | cons d ds =>
        rw [hd, List.cons_append] at h
        obtain rfl : d = '0' := (List.cons.inj h).1
        cases ds with
        | nil =>
          rw [hd] at hvalue
          have hzero : Number.digitsValue ['0'] = 0 := rfl
          omega
        | cons e ds => exact hrest e ds hd

theorem le_ofDigitChars (digits : List Char) (s : Nat) : s ≤ Nat.ofDigitChars 10 digits s := by
  rw [Nat.ofDigitChars_eq_ofDigitChars_zero]
  exact Nat.le_add_right_of_le (Nat.le_mul_of_pos_left s (Nat.pow_pos (by decide)))

/-- Digits that fit into 64 bits are all taken. -/
theorem absorb_eq {digits : List Char} {s : Nat}
    (h : Nat.ofDigitChars 10 digits s < UInt64.size) :
    absorb s digits = (Nat.ofDigitChars 10 digits s, digits.length) := by
  induction digits generalizing s with
  | nil => rfl
  | cons c digits ih =>
    rw [Nat.ofDigitChars_cons, Nat.mul_comm] at h
    have hle := le_ofDigitChars digits (s * 10 + (c.toNat - '0'.toNat))
    rw [absorb, Nat.ofDigitChars_cons, Nat.mul_comm 10]
    simp only
    rw [if_pos (by omega), ih h]
    rfl

theorem readUnsigned_toDigits {n : Nat} (negative : Bool) (hn : n < UInt64.size)
    (hr : EndsNumber rest) :
    readUnsigned negative (Nat.toDigits 10 n ++ rest) = .ok (whole negative n, rest) := by
  have htake : takeDigits (Nat.toDigits 10 n ++ rest) = (Nat.toDigits 10 n, rest) := by
    have hd : ∀ c ∈ Nat.toDigits 10 n, c.isDigit = true :=
      fun c hc => Number.isDigit_of_mem_toDigits hc
    rw [takeDigits, Number.takeWhile_isDigit hd hr.noDigit,
      Number.dropWhile_isDigit hd hr.noDigit]
  have hvalue : Nat.ofDigitChars 10 (Nat.toDigits 10 n) 0 = n := Number.digitsValue_toDigits n
  have habsorb : absorb 0 (Nat.toDigits 10 n) = (n, (Nat.toDigits 10 n).length) := by
    rw [absorb_eq (by rwa [hvalue]), hvalue]
  have hnone : readFraction [] = .ok (none, []) := rfl
  have hfraction : readFraction rest = .ok (none, rest) := readFraction_append hnone hr
  have hnone : readExponent [] = .ok (none, []) := rfl
  have hexponent : readExponent rest = .ok (none, rest) := readExponent_append hnone hr
  rw [readUnsigned, htake]
  simp only
  split
  · next hnil => exact absurd hnil Nat.toDigits_ne_nil
  · next hzero => exact absurd hzero (toDigits_ne_zero_cons n _ _)
  · simp [hfraction, hexponent, habsorb, bind, Except.bind, pure, Except.pure]

/-- Whole numbers of 64 bits come back, with or without a sign. -/
theorem readNumber_integerText {n : Int} (hlow : -(Nat.pow 2 63) ≤ n) (hhigh : n < UInt64.size)
    (hr : EndsNumber rest) : readNumber (integerText n ++ rest) = .ok (.integer n, rest) := by
  have hsize : UInt64.size = 2 ^ 64 := rfl
  have hpow : Nat.pow 2 63 = 2 ^ 63 := rfl
  by_cases hn : n < 0
  · have habs : -(n.natAbs : Int) = n := by omega
    rw [integerText, Number.signed, decide_eq_true hn, if_pos rfl]
    show readUnsigned true (Nat.toDigits 10 n.natAbs ++ rest) = _
    rw [readUnsigned_toDigits true (by omega) hr, whole, if_neg (by simp),
      if_pos ⟨by omega, by omega⟩, habs]
  · have habs : (n.natAbs : Int) = n := by omega
    rw [integerText, Number.signed, decide_eq_false hn, if_neg (by simp)]
    cases hd : Nat.toDigits 10 n.natAbs with
    | nil => exact absurd hd Nat.toDigits_ne_nil
    | cons d ds =>
      have hdigit : d.isDigit = true :=
        Number.isDigit_of_mem_toDigits (by rw [hd]; exact List.mem_cons_self)
      have hsign : d ≠ '-' := by
        rintro rfl
        simp at hdigit
      rw [List.cons_append, readNumber_of_ne hsign, ← List.cons_append, ← hd,
        readUnsigned_toDigits false (by omega) hr, whole, if_pos (by simp), habs]

/-! ## Other numbers -/

/-- The number comes back from its own text. -/
def ReadsBack (x : Float) : Prop := readNumber (Number.floatText x).toList = .ok (.float x, [])

/-- The number that has been read, if nothing is left of the text. -/
def float? : Parsed Json → Option Float
  | .ok (.float x, []) => some x
  | _ => none

theorem float?_eq_some_iff {p : Parsed Json} {x : Float} :
    float? p = some x ↔ p = .ok (.float x, []) := by
  constructor
  · intro h
    unfold float? at h
    split at h
    · rw [Option.some.inj h]
    · simp at h
  · rintro rfl
    rfl

instance (x : Float) : Decidable (ReadsBack x) := decidable_of_iff _ float?_eq_some_iff

/-- The digits of 1 / 997 are read as the number below it. -/
theorem exists_not_readsBack : ∃ x : Float, x.isFinite = true ∧ ¬ReadsBack x :=
  ⟨1.0 / 997.0, by decide +kernel, by decide +kernel⟩

theorem ReadsBack.readNumber {x : Float} (h : ReadsBack x) (hr : EndsNumber rest) :
    readNumber ((Number.floatText x).toList ++ rest) = .ok (.float x, rest) :=
  readNumber_append h hr

end SchemaLang.Json
