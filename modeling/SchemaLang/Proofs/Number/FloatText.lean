import SchemaLang.Proofs.Number.Digits
import SchemaLang.Proofs.Number.Scientific
import SchemaLang.Proofs.Number.Shortest
import SchemaLang.Validate.Builtin

/-!
# Numbers are read back from their texts

The text of a number is digits with a point, with or without an exponent.  Whatever is written of
the digits, the decimal stays the same, and it is one that belongs to the number.

* `finite?_floatText`: a finite number is read back from its text.
-/

namespace SchemaLang

namespace Number

/-! ## Reading digits, a point and an exponent -/

theorem isEmpty_append_of_ne_nil {whole fraction : List Char} (h : whole ≠ []) :
    (whole.isEmpty && fraction.isEmpty) = false := by
  rw [List.isEmpty_eq_false_iff.2 h, Bool.false_and]

theorem decimal?_point {whole fraction rest : List Char} (hw : ∀ c ∈ whole, c.isDigit = true)
    (hf : ∀ c ∈ fraction, c.isDigit = true) (hne : whole ≠ []) (hr : NoDigit rest) :
    decimal? (whole ++ '.' :: (fraction ++ rest)) = (exponent? rest).map fun e =>
      nearest (digitsValue (whole ++ fraction)) (e - fraction.length) := by
  have hp : NoDigit ('.' :: (fraction ++ rest)) := noDigit_cons (by decide)
  simp only [decimal?, takeWhile_isDigit hw hp, dropWhile_isDigit hw hp, takeWhile_isDigit hf hr,
    dropWhile_isDigit hf hr, isEmpty_append_of_ne_nil hne, Bool.false_eq_true, if_false]

theorem decimal?_whole {whole rest : List Char} (hw : ∀ c ∈ whole, c.isDigit = true)
    (hne : whole ≠ []) (hr : NoDigit rest) (hp : rest.head? ≠ some '.') :
    decimal? (whole ++ rest) = (exponent? rest).map fun e => nearest (digitsValue whole) e := by
  simp only [decimal?, takeWhile_isDigit hw hr, dropWhile_isDigit hw hr]
  split
  · next cs => exact absurd rfl hp
  · simp only [isEmpty_append_of_ne_nil hne, Bool.false_eq_true, if_false, List.append_nil,
      List.length_nil, Nat.cast_zero, sub_zero]

theorem exponent?_power (power : ℤ) :
    exponent? ('e' :: (if power < 0 then '-' else '+') :: Nat.toDigits 10 power.natAbs)
      = some power := by
  rw [exponent?, if_pos (by decide), integer?]
  by_cases h : power < 0
  · rw [if_pos h, splitSign]
    simp only [natural?_toDigits, Option.bind_eq_bind, Option.bind_some, Option.pure_def,
      Option.map_some, if_true, Option.some.injEq]
    omega
  · rw [if_neg h, splitSign]
    simp only [natural?_toDigits, Option.bind_eq_bind, Option.bind_some, Option.pure_def,
      Option.map_some, Bool.false_eq_true, if_false, Option.some.injEq]
    omega

/-! ## Writing digits -/

/-- A text that is read as the number nearest to a decimal, up to where its point is written. -/
def Writes (cs : List Char) (x : ℚ) : Prop :=
  ∃ n k, decimal? cs = some (nearest n k) ∧ (n : ℚ) * 10 ^ k = x

theorem mul_ten_pow (n j : ℕ) (k : ℤ) : ((n * 10 ^ j : ℕ) : ℚ) * 10 ^ k = n * 10 ^ (j + k) := by
  rw [zpow_add₀ (by norm_num), zpow_natCast]
  push_cast
  ring

theorem digitsValue_append_zeros (ds : List Char) (n : ℕ) :
    digitsValue (ds ++ zeros n) = digitsValue ds * 10 ^ n := by
  rw [digitsValue_append, digitsValue_zeros, Nat.add_zero, zeros, List.length_replicate]

theorem length_zeros (n : ℕ) : (zeros n).length = n := List.length_replicate

theorem writes_point {whole fraction : List Char} (hw : ∀ c ∈ whole, c.isDigit = true)
    (hf : ∀ c ∈ fraction, c.isDigit = true) (hne : whole ≠ []) :
    Writes (whole ++ '.' :: fraction)
      (digitsValue (whole ++ fraction) * 10 ^ (-(fraction.length : ℤ))) := by
  have h := decimal?_point hw hf hne noDigit_nil
  rw [List.append_nil] at h
  exact ⟨_, _, h, by rw [zero_sub]⟩

theorem writes_positional {ds : List Char} (hd : ∀ c ∈ ds, c.isDigit = true) (hne : ds ≠ [])
    (point : ℤ) : Writes (positional ds point) (digitsValue ds * 10 ^ (point - ds.length)) := by
  have hz : ∀ n, ∀ c ∈ zeros n, c.isDigit = true := fun n c hc => isDigit_of_mem_zeros hc
  rw [positional]
  split
  · next h =>
    have hf : ∀ c ∈ zeros (-point).toNat ++ ds, c.isDigit = true :=
      List.forall_mem_append.2 ⟨hz _, hd⟩
    have hw := writes_point (hz 1) hf (by decide)
    rw [digitsValue_zeros_append, digitsValue_zeros_append, List.length_append, length_zeros] at hw
    have he : point - ds.length = -(((-point).toNat + ds.length : ℕ) : ℤ) := by omega
    rw [he]
    exact hw
  · next h =>
    have hp : (point.toNat : ℤ) = point := Int.toNat_of_nonneg (by omega)
    dsimp only
    split
    · next hl =>
      have hi : ∀ c ∈ ds ++ zeros (point.toNat - ds.length), c.isDigit = true :=
        List.forall_mem_append.2 ⟨hd, hz _⟩
      have hw := writes_point hi (hz 1) (by simp [hne])
      have he : ((point.toNat - ds.length : ℕ) : ℤ) = point - ds.length := by omega
      have hv : (digitsValue ((ds ++ zeros (point.toNat - ds.length)) ++ zeros 1) : ℚ)
          * 10 ^ (-((zeros 1).length : ℤ)) = digitsValue ds * 10 ^ (point - ds.length) := by
        rw [digitsValue_append_zeros, digitsValue_append_zeros, mul_ten_pow, mul_ten_pow, he,
          length_zeros, add_neg_cancel, add_zero]
      rw [← hv]
      exact hw
    · next hl =>
      have hi : ∀ c ∈ ds.take point.toNat, c.isDigit = true := fun c hc =>
        hd c (List.mem_of_mem_take hc)
      have hf : ∀ c ∈ ds.drop point.toNat, c.isDigit = true := fun c hc =>
        hd c (List.mem_of_mem_drop hc)
      have hw := writes_point hi hf (by simp [hne]; omega)
      rw [List.take_append_drop, List.length_drop] at hw
      have he : point - ds.length = -((ds.length - point.toNat : ℕ) : ℤ) := by omega
      rw [he]
      exact hw

theorem writes_scientific {ds : List Char} (hd : ∀ c ∈ ds, c.isDigit = true) (hne : ds ≠ [])
    (point : ℤ) : Writes (scientific ds point) (digitsValue ds * 10 ^ (point - ds.length)) := by
  have he := exponent?_power (point - 1)
  have hr : NoDigit ('e' :: (if point - 1 < 0 then '-' else '+')
      :: Nat.toDigits 10 (point - 1).natAbs) := noDigit_cons (by decide)
  have hlen := List.length_pos_iff.2 hne
  have hw : ∀ c ∈ ds.take 1, c.isDigit = true := fun c hc => hd c (List.mem_of_mem_take hc)
  have htne : ds.take 1 ≠ [] := by simp [hne]
  rw [scientific]
  split
  · next hl =>
    have h := decimal?_whole hw htne hr (by simp)
    rw [he, Option.map_some, List.take_of_length_le hl] at h
    refine ⟨_, _, ?_, rfl⟩
    rw [List.append_nil, List.take_of_length_le hl, h]
    congr 2
    omega
  · next hl =>
    have hf : ∀ c ∈ ds.drop 1, c.isDigit = true := fun c hc => hd c (List.mem_of_mem_drop hc)
    have h := decimal?_point hw hf htne hr
    rw [he, Option.map_some, List.take_append_drop, List.length_drop] at h
    refine ⟨_, _, ?_, rfl⟩
    rw [List.append_assoc, List.cons_append, h]
    congr 2
    omega

/-! ## The text of a number -/

theorem exists_trimZeros (ds : List Char) : ∃ j, ds = trimZeros ds ++ zeros j := by
  have h := congrArg List.reverse (List.takeWhile_append_dropWhile (p := (· == '0'))
    (l := ds.reverse))
  rw [List.reverse_append, List.reverse_reverse] at h
  refine ⟨(ds.reverse.takeWhile (· == '0')).length, ?_⟩
  conv_lhs => rw [← h]
  rw [trimZeros, zeros]
  congr 1
  rw [List.reverse_eq_iff, List.reverse_replicate]
  exact List.eq_replicate_of_mem fun c hc => by
    simpa using List.all_eq_true.1 List.all_takeWhile c hc

theorem Nearest.pos {m : ℕ} {e : ℤ} {x : ℚ} (h0 : 0 < m) (h : Nearest m (downTo m e) x) :
    0 < x := by
  have hm : (1 : ℚ) ≤ m := by exact_mod_cast h0
  have hd := downTo_le m e
  rcases h.low with hl | ⟨hl, -⟩ <;> linarith

theorem pos_of_nearest {m n : ℕ} {e k : ℤ} (h0 : 0 < m)
    (h : Nearest m (downTo m e) (n * 10 ^ k * 2 ^ (-e))) : 0 < n := by
  rcases Nat.eq_zero_or_pos n with rfl | hn
  · have := h.pos h0
    simp at this
  · exact hn

/-- The text is made of the digits of the shortest decimal, without the zeros at their end. -/
theorem exists_digits_finiteText {m : ℕ} {e : ℤ} (hm : Normalized m e) :
    ∃ ds, ∃ point : ℤ, (∀ c ∈ ds, c.isDigit = true) ∧ ds ≠ []
      ∧ (digitsValue ds : ℚ) * 10 ^ (point - ds.length)
        = (rounding m e).shortest.1 * 10 ^ (rounding m e).shortest.2
      ∧ (finiteText m e = positional ds point ∨ finiteText m e = scientific ds point) := by
  have hpos := pos_of_nearest hm.pos ((contains_iff_nearest hm.pos).1 (contains_shortest hm))
  rw [finiteText, if_neg (Nat.ne_of_gt hm.pos)]
  generalize (rounding m e).shortest = p at hpos
  obtain ⟨c, k⟩ := p
  obtain ⟨j, hj⟩ := exists_trimZeros (Nat.toDigits 10 c)
  have hc : digitsValue (trimZeros (Nat.toDigits 10 c)) * 10 ^ j = c := by
    rw [← digitsValue_append_zeros, ← hj, digitsValue_toDigits]
  have hlen := congrArg List.length hj
  rw [List.length_append, length_zeros] at hlen
  have hexp : ((Nat.toDigits 10 c).length : ℤ) + k - (trimZeros (Nat.toDigits 10 c)).length
      = j + k := by omega
  refine ⟨trimZeros (Nat.toDigits 10 c), (Nat.toDigits 10 c).length + k, ?_, ?_, ?_, ?_⟩
  · exact fun d hd => isDigit_of_mem_toDigits (n := c) (hj ▸ List.mem_append_left _ hd)
  · intro hn
    rw [hn, show digitsValue [] = 0 from rfl, Nat.zero_mul] at hc
    exact Nat.ne_of_lt hpos hc
  · rw [hexp, ← mul_ten_pow, hc]
  · dsimp only
    split
    · exact .inl rfl
    · exact .inr rfl

theorem decimal?_finiteText {m : ℕ} {e : ℤ} (hm : Normalized m e) :
    decimal? (finiteText m e) = some (ofParts false m e hm.pos) := by
  obtain ⟨ds, point, hd, hne, hv, ht⟩ := exists_digits_finiteText hm
  have hw : Writes (finiteText m e) (digitsValue ds * 10 ^ (point - ds.length)) := by
    rcases ht with ht | ht
    · exact ht ▸ writes_positional hd hne point
    · exact ht ▸ writes_scientific hd hne point
  obtain ⟨n, k, hd, hn⟩ := hw
  have hb := (contains_iff_nearest hm.pos).1 (contains_shortest hm)
  rw [← hv, ← hn] at hb
  rw [hd, nearest_eq (pos_of_nearest hm.pos hb) hm hb]

/-! ## Its characters -/

/-- A text that starts with a digit and has no white space. -/
structure Numeral (cs : List Char) : Prop where
  digit : ∃ c rest, cs = c :: rest ∧ c.isDigit = true
  isSpace : ∀ c ∈ cs, Text.isSpace c = false

theorem isSpace_of_digits {ds : List Char} (hd : ∀ c ∈ ds, c.isDigit = true) :
    ∀ c ∈ ds, Text.isSpace c = false := fun c hc => Text.isSpace_of_isDigit (hd c hc)

theorem numeral_positional {d : Char} {ds : List Char} (hd : ∀ c ∈ d :: ds, c.isDigit = true)
    (point : ℤ) : Numeral (positional (d :: ds) point) := by
  have hs := isSpace_of_digits hd
  have hz : ∀ n, ∀ c ∈ zeros n, Text.isSpace c = false := fun n =>
    isSpace_of_digits fun c hc => isDigit_of_mem_zeros hc
  have hdot : Text.isSpace '.' = false := by decide
  rw [positional]
  split
  · refine ⟨⟨_, _, rfl, by decide⟩, ?_⟩
    simp only [List.forall_mem_cons, List.forall_mem_append]
    exact ⟨by decide, hdot, hz _, List.forall_mem_cons.1 hs⟩
  · next hp =>
    have hd0 := hd d List.mem_cons_self
    dsimp only
    split
    · refine ⟨⟨d, _, rfl, hd0⟩, ?_⟩
      simp only [List.forall_mem_append]
      exact ⟨⟨hs, hz _⟩, List.forall_mem_cons.2 ⟨hdot, hz 1⟩⟩
    · obtain ⟨k, hk⟩ : ∃ k, point.toNat = k + 1 := ⟨point.toNat - 1, by omega⟩
      rw [hk]
      refine ⟨⟨d, _, rfl, hd0⟩, ?_⟩
      simp only [List.forall_mem_append, List.forall_mem_cons]
      exact ⟨fun c hc => hs c (List.mem_of_mem_take hc), hdot,
        fun c hc => hs c (List.mem_of_mem_drop hc)⟩

theorem numeral_scientific {d : Char} {ds : List Char} (hd : ∀ c ∈ d :: ds, c.isDigit = true)
    (point : ℤ) : Numeral (scientific (d :: ds) point) := by
  have hs := isSpace_of_digits hd
  refine ⟨⟨d, _, rfl, hd d List.mem_cons_self⟩, ?_⟩
  rw [scientific]
  simp only [List.forall_mem_append, List.forall_mem_cons]
  refine ⟨⟨fun c hc => hs c (List.mem_of_mem_take hc), ?_⟩, by decide, by split <;> decide,
    isSpace_of_digits fun c hc => isDigit_of_mem_toDigits hc⟩
  split
  · simp
  · exact List.forall_mem_cons.2 ⟨by decide, fun c hc => hs c (List.mem_of_mem_drop hc)⟩

theorem numeral_finiteText {m : ℕ} {e : ℤ} (hm : Normalized m e) :
    Numeral (finiteText m e) := by
  obtain ⟨ds, point, hd, hne, -, ht⟩ := exists_digits_finiteText hm
  obtain ⟨d, ds, rfl⟩ := List.exists_cons_of_ne_nil hne
  rcases ht with ht | ht
  · exact ht ▸ numeral_positional hd point
  · exact ht ▸ numeral_scientific hd point

/-! ## Reading it back -/

theorem toLower_of_isDigit {c : Char} (hc : c.isDigit = true) : c.toLower = c := by
  simp only [Char.isDigit, Bool.and_eq_true, decide_eq_true_eq] at hc
  rw [Char.toLower, dif_neg]
  rintro ⟨h, -⟩
  exact absurd (UInt32.le_trans h hc.2) (by decide)

theorem unsigned?_of_isDigit {c : Char} {cs : List Char} (hc : c.isDigit = true) :
    unsigned? (c :: cs) = decimal? (c :: cs) := by
  have hne : ∀ d ds, d.isDigit = false → (c :: cs).map Char.toLower ≠ d :: ds := by
    intro d ds hd h
    rw [List.map_cons, toLower_of_isDigit hc] at h
    rw [(List.cons.inj h).1, hd] at hc
    simp at hc
  simp only [unsigned?]
  rw [if_neg, if_neg]
  · exact hne 'n' _ (by decide)
  · rintro (h | h)
    · exact hne 'i' _ (by decide) h
    · exact hne 'i' _ (by decide) h

theorem splitSign_signed {c : Char} {cs : List Char} (negative : Bool) (hc : c.isDigit = true) :
    splitSign (signed negative (c :: cs)) = (negative, c :: cs) := by
  cases negative with
  | true => rfl
  | false =>
    show splitSign (c :: cs) = (false, c :: cs)
    rw [splitSign]
    · rintro _ ⟨rfl, -⟩
      simp at hc
    · rintro _ ⟨rfl, -⟩
      simp at hc

theorem trim_signed {cs : List Char} (negative : Bool) (h : Numeral cs) :
    Text.trim (signed negative cs) = signed negative cs := by
  apply Text.trim_eq_self
  cases negative with
  | true => exact List.forall_mem_cons.2 ⟨by decide, h.isSpace⟩
  | false => exact h.isSpace

theorem float?_signed {cs : List Char} (negative : Bool)
    (h : ∃ c rest, cs = c :: rest ∧ c.isDigit = true) :
    float? (signed negative cs) = (decimal? cs).map fun x => if negative then -x else x := by
  obtain ⟨c, rest, rfl, hc⟩ := h
  simp only [float?, splitSign_signed negative hc, unsigned?_of_isDigit hc]

end Number

theorem finite?_floatText {x : Float} (h : x.isFinite = true) :
    finite? (Number.floatText x) = some x := by
  obtain ⟨negative, m, e, hx⟩ := Number.exists_exact h
  rw [Number.floatText, hx]
  rcases Nat.eq_zero_or_pos m with rfl | h0
  · rw [Number.eq_zero_of_exact hx]
    show finite? (String.ofList (Number.signed negative (Number.finiteText 0 e))) = _
    rw [Number.finiteText, if_pos rfl]
    cases negative with
    | true => decide +kernel
    | false => decide +kernel
  · obtain ⟨hm, rfl⟩ := Number.eq_ofParts hx h0
    have hn := Number.numeral_finiteText hm
    rw [finite?, String.toList_ofList, Number.trim_signed negative hn,
      Number.float?_signed negative hn.digit, Number.decimal?_finiteText hm]
    cases negative with
    | true =>
      simp only [Option.map_some, if_true, Option.bind_some, Number.neg_ofParts hm,
        Number.isFinite_ofParts hm]
    | false =>
      simp only [Option.map_some, Bool.false_eq_true, if_false, Option.bind_some,
        Number.isFinite_ofParts hm, if_true]

end SchemaLang
