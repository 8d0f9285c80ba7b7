import SchemaLang.Calendar.Parser
import SchemaLang.Proofs.Number.Digits

/-!
# Dates and moments are read back

A date is read back from its text, whatever its year, and so is a moment.  The strict form takes
years of four digits only, and the others are taken by the first of the lenient forms.

* `Date.parse?_text`, `Moment.parse?_text`: the round trips.
-/

namespace SchemaLang

namespace Calendar

open Number (NoDigit digitsValue)
open Text (trimStart)

/-! ## Pieces of a text -/

theorem noDigit_take {cs : List Char} (h : NoDigit cs) (n : Nat) : NoDigit (cs.take n) := by
  cases n with
  | zero => exact Number.noDigit_nil
  | succ n =>
    cases cs with
    | nil => exact Number.noDigit_nil
    | cons c cs => exact Number.noDigit_cons (h c rfl)

theorem digits?_append {least most : Nat} {ds rest : List Char}
    (hd : ∀ c ∈ ds, c.isDigit = true) (hr : NoDigit rest) (hl : least ≤ ds.length)
    (hm : ds.length ≤ most) : digits? least most (ds ++ rest) = some (digitsValue ds, rest) := by
  have ht : ((ds ++ rest).take most).takeWhile Char.isDigit = ds := by
    rw [List.take_append, List.take_of_length_le hm]
    exact Number.takeWhile_isDigit hd (noDigit_take hr _)
  simp only [digits?, ht]
  rw [if_neg (by omega), List.drop_left]

/-- As many digits as are taken may be followed by others. -/
theorem digits?_exact {least n : Nat} {ds : List Char} (rest : List Char)
    (hd : ∀ c ∈ ds, c.isDigit = true) (hl : ds.length = n) (hle : least ≤ n) :
    digits? least n (ds ++ rest) = some (digitsValue ds, rest) := by
  have ht : ((ds ++ rest).take n).takeWhile Char.isDigit = ds := by
    have h := Number.takeWhile_isDigit hd Number.noDigit_nil
    rw [List.append_nil] at h
    rw [← hl, List.take_left, h]
  simp only [digits?, ht]
  rw [if_neg (by omega), List.drop_left]

theorem digits?_padded {least width n : Nat} (rest : List Char) (hw : 0 < width)
    (hn : n < 10 ^ width) (hl : least ≤ width) :
    digits? least width (Date.padded width n ++ rest) = some (n, rest) := by
  rw [digits?_exact rest (fun c hc => Number.isDigit_of_mem_padded hc)
    (Number.length_padded hw hn) hl, Number.digitsValue_padded]

theorem trimStart_padded (width n : Nat) (rest : List Char) :
    trimStart (Date.padded width n ++ rest) = Date.padded width n ++ rest := by
  obtain ⟨c, cs, h⟩ := List.exists_cons_of_ne_nil (Number.padded_ne_nil width n)
  have hc : c.isDigit = true := Number.isDigit_of_mem_padded (h ▸ List.mem_cons_self)
  rw [h, List.cons_append]
  exact Text.trimStart_of_not_isSpace (Text.isSpace_of_isDigit hc)

theorem number?_padded {n : Nat} (rest : List Char) (hn : n < 10 ^ 2) :
    number? (Date.padded 2 n ++ rest) = some (n, rest) := by
  rw [number?, trimStart_padded, digits?_padded rest (by decide) hn (by decide)]

theorem bind_of_eq_some {α β : Type} {x : Option α} {a : α} (h : x = some a)
    (f : α → Option β) : (x >>= f) = f a := by
  rw [h]
  rfl

theorem char?_cons (c : Char) (cs : List Char) : char? c (c :: cs) = some cs := by
  rw [char?, if_pos rfl]

/-! ## Dates -/

theorem year?_padded {width n : Nat} {rest : List Char} :
    year? (Date.padded width n ++ rest)
      = (digits? 1 4 (Date.padded width n ++ rest)).map fun (n, rest) => ((n : Int), rest) := by
  obtain ⟨c, cs, h⟩ := List.exists_cons_of_ne_nil (Number.padded_ne_nil width n)
  have hc : c.isDigit = true := Number.isDigit_of_mem_padded (h ▸ List.mem_cons_self)
  rw [year?, trimStart_padded, h, List.cons_append]
  split
  · next he =>
    cases he
    simp at hc
  · next he =>
    cases he
    simp at hc
  · rfl

theorem year?_signed {c : Char} (hc : c = '-' ∨ c = '+') (n : Nat) {rest : List Char}
    (hr : NoDigit rest) :
    year? (c :: (Date.padded 4 n ++ rest)) = some (if c = '-' then -(n : Int) else n, rest) := by
  have hd : digits? 1 (Date.padded 4 n ++ rest).length (Date.padded 4 n ++ rest)
      = some (n, rest) := by
    rw [digits?_append (fun c hc => Number.isDigit_of_mem_padded hc) hr
      (List.length_pos_iff.2 (Number.padded_ne_nil 4 n)) (by simp), Number.digitsValue_padded]
  rcases hc with rfl | rfl
  · rw [year?, Text.trimStart_of_not_isSpace (by decide)]
    simp only [hd, Option.map_some, if_true]
  · rw [year?, Text.trimStart_of_not_isSpace (by decide)]
    simp only [hd, Option.map_some]
    rfl

theorem year?_yearText (year : Int) {rest : List Char} (hr : NoDigit rest) :
    year? (Date.yearText year ++ rest) = some (year, rest) := by
  rw [Date.yearText]
  split
  · next h =>
    rw [year?_padded, digits?_padded rest (by decide) (by omega) (by decide)]
    simp only [Option.map_some, Option.some.injEq, Prod.mk.injEq, and_true]
    omega
  · next h =>
    rw [List.cons_append, year?_signed (by split <;> simp) _ hr]
    simp only [Option.some.injEq, Prod.mk.injEq, and_true]
    by_cases hn : year < 0
    · rw [if_pos hn, if_pos rfl]
      omega
    · rw [if_neg hn, if_neg (by decide)]
      omega

theorem month_lt {year : Int} {month day : Nat} (h : Date.Valid year month day) :
    month < 10 ^ 2 := by
  have hm := h.2.2.2.1
  omega

theorem day_lt {year : Int} {month day : Nat} (h : Date.Valid year month day) : day < 10 ^ 2 := by
  have hd := h.2.2.2.2.2
  have hm : Date.daysInMonth year month ≤ 31 := by
    rw [Date.daysInMonth]
    split
    · split <;> decide
    · split <;> decide
  omega

theorem dateFrom_chars (d : Date) (rest : List Char) :
    dateFrom (d.chars ++ rest) = some (d, rest) := by
  obtain ⟨year, month, day, hv⟩ := d
  have hof : Date.of? year month day = some ⟨year, month, day, hv⟩ := dif_pos hv
  have hdash : ∀ cs, NoDigit ('-' :: cs) := fun cs => Number.noDigit_cons (by decide)
  rw [dateFrom, Date.chars]
  simp only [List.append_assoc, List.cons_append]
  rw [year?_yearText year (hdash _)]
  simp only [Option.bind_eq_bind, Option.bind_some, char?_cons, number?_padded _ (month_lt hv),
    number?_padded _ (day_lt hv), hof]
  rfl

theorem dateAlone?_chars (d : Date) : dateAlone? d.chars = some d := by
  have h := dateFrom_chars d []
  rw [List.append_nil] at h
  rw [dateAlone?, h]
  rfl

/-! ## Times of day -/

/-- What stands after a time of day: neither a digit nor a point. -/
def EndsClock (cs : List Char) : Prop := NoDigit cs ∧ cs.head? ≠ some '.'

theorem fraction?_point {k n : Nat} {rest : List Char} (hk : 0 < k) (hk9 : k ≤ 9)
    (hn : n < 10 ^ k) (hr : NoDigit rest) :
    fraction? ('.' :: Date.padded k n ++ rest) = some (n * 10 ^ (9 - k), rest) := by
  have hd : ∀ c ∈ Date.padded k n, c.isDigit = true := fun c hc => Number.isDigit_of_mem_padded hc
  have hl := Number.length_padded hk hn
  have ht : (Date.padded k n).take 9 = Date.padded k n := List.take_of_length_le (by omega)
  have he : (Date.padded k n).isEmpty = false := by
    rw [List.isEmpty_eq_false_iff]
    exact Number.padded_ne_nil k n
  rw [List.cons_append, fraction?]
  simp only [Number.takeWhile_isDigit hd hr, Number.dropWhile_isDigit hd hr, ht, hl, he,
    Number.digitsValue_padded]
  rfl

theorem fraction?_none {rest : List Char} (hr : rest.head? ≠ some '.') :
    fraction? rest = some (0, rest) := by
  rw [fraction?]
  rintro cs rfl
  exact hr rfl

theorem fraction?_fractionText {nano : Nat} {rest : List Char} (hn : nano < 10 ^ 9)
    (hr : EndsClock rest) : fraction? (Clock.fractionText nano ++ rest) = some (nano, rest) := by
  rw [Clock.fractionText]
  split
  · next h0 =>
    rw [List.nil_append, fraction?_none hr.2, h0]
  · split
    · next h6 =>
      rw [fraction?_point (by decide) (by decide) (by omega) hr.1]
      simp only [Option.some.injEq, Prod.mk.injEq, and_true]
      omega
    · split
      · next h3 =>
        rw [fraction?_point (by decide) (by decide) (by omega) hr.1]
        simp only [Option.some.injEq, Prod.mk.injEq, and_true]
        omega
      · rw [fraction?_point (by decide) (by decide) hn hr.1]
        simp

theorem clockFrom_chars (c : Clock) {rest : List Char} (hr : EndsClock rest) :
    clockFrom true (c.chars ++ rest) = some (c, rest) := by
  obtain ⟨hour, minute, second, nano, hv⟩ := c
  have hof : Clock.of? hour minute second nano = some ⟨hour, minute, second, nano, hv⟩ :=
    dif_pos hv
  rw [clockFrom, Clock.chars]
  simp only [List.append_assoc, List.cons_append]
  rw [number?_padded _ (by omega)]
  simp only [Option.bind_eq_bind, Option.bind_some, char?_cons, if_true]
  rw [number?_padded _ (by omega)]
  simp only [Option.bind_some, char?_cons]
  rw [number?_padded _ (by omega)]
  simp only [Option.bind_some, fraction?_fractionText hv.2.2.2 hr, hof]
  rfl

/-! ## Offsets -/

/-- An offset in hours and minutes, also where it is nothing. -/
def numericOffset (offset : Int) : List Char :=
  (if offset < 0 then '-' else '+') ::
    (Date.padded 2 (offset.natAbs / 60) ++ ':' :: Date.padded 2 (offset.natAbs % 60))

theorem endsClock_numericOffset (offset : Int) : EndsClock (numericOffset offset) := by
  constructor
  · apply Number.noDigit_cons
    split <;> decide
  · rw [numericOffset, List.head?_cons]
    split <;> decide

theorem offsetFrom_numericOffset {offset : Int} {separator : List Char → Option (List Char)}
    (h : -1440 < offset ∧ offset < 1440)
    (hs : ∀ n, separator (':' :: Date.padded 2 n) = some (Date.padded 2 n)) :
    offsetFrom separator (numericOffset offset) = some (offset, []) := by
  have hm : digits? 2 2 (Date.padded 2 (offset.natAbs % 60) ++ [])
      = some (offset.natAbs % 60, []) :=
    digits?_padded [] (by decide) (by omega) (by decide)
  rw [List.append_nil] at hm
  have hsign : offsetSign? (numericOffset offset) = some (decide (offset < 0),
      Date.padded 2 (offset.natAbs / 60) ++ ':' :: Date.padded 2 (offset.natAbs % 60)) := by
    rw [numericOffset]
    by_cases hn : offset < 0
    · rw [if_pos hn, decide_eq_true hn]
      rfl
    · rw [if_neg hn, decide_eq_false hn]
      rfl
  have hlt : ¬60 ≤ offset.natAbs % 60 := by omega
  rw [offsetFrom, hsign]
  simp only [Option.bind_eq_bind, Option.bind_some]
  rw [digits?_padded _ (by decide) (by omega) (by decide)]
  simp only [Option.bind_some, hs, hm, if_neg hlt]
  by_cases hn : offset < 0
  · have ho : -(((offset.natAbs / 60 : Nat) : Int) * 60 + (offset.natAbs % 60 : Nat)) = offset := by
      omega
    rw [if_pos (decide_eq_true hn), ho]
    rfl
  · have ho : ((offset.natAbs / 60 : Nat) : Int) * 60 + (offset.natAbs % 60 : Nat) = offset := by
      omega
    rw [if_neg (by simpa using hn), ho]
    rfl

theorem lenientSeparator_padded (n : Nat) :
    lenientSeparator (':' :: Date.padded 2 n) = some (Date.padded 2 n) := by
  obtain ⟨c, cs, h⟩ := List.exists_cons_of_ne_nil (Number.padded_ne_nil 2 n)
  have hc : c.isDigit = true := Number.isDigit_of_mem_padded (h ▸ List.mem_cons_self)
  have hcolon : c ≠ ':' := by
    rintro rfl
    simp at hc
  rw [lenientSeparator, List.dropWhile_cons_of_pos (by decide), h,
    List.dropWhile_cons_of_neg (by simp [hcolon, Text.isSpace_of_isDigit hc])]

/-! ## Moments -/

theorem withoutZulu_zulu (cs : List Char) :
    withoutZulu (cs ++ ['Z']) = cs ++ ['+', '0', '0', ':', '0', '0'] := by
  rw [withoutZulu, List.getLast?_concat, List.dropLast_concat]
  rfl

theorem withoutZulu_of_isDigit {c : Char} (cs : List Char) (hc : c.isDigit = true) :
    withoutZulu (cs ++ [c]) = cs ++ [c] := by
  rw [withoutZulu, List.getLast?_concat]
  split
  · next h =>
    cases h
    simp at hc
  · next h =>
    cases h
    simp at hc
  · rfl

theorem exists_numericOffset (offset : Int) :
    ∃ cs c, numericOffset offset = cs ++ [c] ∧ c.isDigit = true := by
  have hne := Number.padded_ne_nil 2 (offset.natAbs % 60)
  refine ⟨(if offset < 0 then '-' else '+') :: (Date.padded 2 (offset.natAbs / 60) ++ ':' ::
    (Date.padded 2 (offset.natAbs % 60)).dropLast),
    (Date.padded 2 (offset.natAbs % 60)).getLast hne, ?_,
    Number.isDigit_of_mem_padded (List.getLast_mem hne)⟩
  rw [numericOffset]
  simp only [List.cons_append, List.append_assoc, List.dropLast_concat_getLast]

theorem withoutZulu_offsetText (cs : List Char) (offset : Int) :
    withoutZulu (cs ++ Moment.offsetText offset) = cs ++ numericOffset offset := by
  rw [Moment.offsetText]
  split
  · next h =>
    rw [withoutZulu_zulu, h]
    rfl
  · obtain ⟨ds, d, hd, hdig⟩ := exists_numericOffset offset
    show withoutZulu (cs ++ numericOffset offset) = _
    rw [hd, ← List.append_assoc, withoutZulu_of_isDigit _ hdig]

/-- The text of a moment with its offset in hours and minutes. -/
def numericText (m : Moment) : List Char :=
  m.date.chars ++ 'T' :: (m.clock.chars ++ numericOffset m.offset)

theorem withoutZulu_chars (m : Moment) : withoutZulu m.chars = numericText m := by
  have h := withoutZulu_offsetText (m.date.chars ++ 'T' :: m.clock.chars) m.offset
  rw [Moment.chars, numericText]
  simpa only [List.append_assoc, List.cons_append] using h

theorem lenient?_numericText (m : Moment) :
    lenient? .letter true true (numericText m) = some m := by
  obtain ⟨date, clock, offset, hv⟩ := m
  have hof : Moment.of? date clock offset = some ⟨date, clock, offset, hv⟩ := dif_pos hv
  have ht : trimStart (numericOffset offset) = numericOffset offset := by
    apply Text.trimStart_of_not_isSpace
    split <;> decide
  rw [lenient?, numericText, dateFrom_chars]
  simp only [Option.bind_eq_bind, Option.bind_some, Joint.skip?, char?_cons, if_true,
    clockFrom_chars clock (endsClock_numericOffset offset), ht,
    offsetFrom_numericOffset ⟨hv.1, hv.2.1⟩ lenientSeparator_padded, List.isEmpty_nil, hof]

theorem digits?_signed {c : Char} (hc : c.isDigit = false) (cs : List Char) :
    digits? 4 4 (c :: cs) = none := by
  rw [digits?, List.take_succ_cons, List.takeWhile_cons_of_neg (by simp [hc])]
  rfl

/-- The strict form reads years of four digits; other years are written with a sign. -/
theorem strict?_numericText (m : Moment) :
    strict? (numericText m) = if 0 ≤ m.date.year ∧ m.date.year ≤ 9999 then some m else none := by
  obtain ⟨⟨year, month, day, hd⟩, ⟨hour, minute, second, nano, hc⟩, offset, hv⟩ := m
  rw [strict?, numericText, Date.chars, Date.yearText, Clock.chars]
  dsimp only
  split
  · next hy =>
    simp only [List.append_assoc, List.cons_append]
    rw [bind_of_eq_some (digits?_padded _ (by decide) (by omega) (by decide)),
      bind_of_eq_some (char?_cons '-' _),
      bind_of_eq_some (digits?_padded _ (by decide) (month_lt hd) (by decide)),
      bind_of_eq_some (char?_cons '-' _),
      bind_of_eq_some (digits?_padded _ (by decide) (day_lt hd) (by decide))]
    dsimp only
    rw [if_pos (.inl rfl), bind_of_eq_some rfl,
      bind_of_eq_some (digits?_padded _ (by decide) (by omega) (by decide)),
      bind_of_eq_some (char?_cons ':' _),
      bind_of_eq_some (digits?_padded _ (by decide) (by omega) (by decide)),
      bind_of_eq_some (char?_cons ':' _),
      bind_of_eq_some (digits?_padded _ (by decide) (by omega) (by decide)),
      bind_of_eq_some (fraction?_fractionText hc.2.2.2 (endsClock_numericOffset offset)),
      bind_of_eq_some (offsetFrom_numericOffset ⟨hv.1, hv.2.1⟩ fun n =>
        char?_cons ':' (Date.padded 2 n))]
    have hyear : ((year.natAbs : Nat) : Int) = year := by omega
    have hdate : Date.of? year month day = some ⟨year, month, day, hd⟩ := dif_pos hd
    have hclock : Clock.of? hour minute second nano = some ⟨hour, minute, second, nano, hc⟩ :=
      dif_pos hc
    have hmoment : Moment.of? ⟨year, month, day, hd⟩ ⟨hour, minute, second, nano, hc⟩ offset
        = some ⟨⟨year, month, day, hd⟩, ⟨hour, minute, second, nano, hc⟩, offset, hv⟩ := dif_pos hv
    simp only [hyear, hdate, hclock, Option.bind_eq_bind, Option.bind_some, List.isEmpty_nil,
      if_true, hmoment]
  · next hy =>
    rw [List.cons_append, List.cons_append, digits?_signed (by split <;> decide)]
    rfl

end Calendar

theorem Date.parse?_text (d : Date) : Date.parse? d.text = some d := by
  rw [parse?, text, String.toList_ofList, Calendar.dateAlone?_chars]
  rfl

theorem Moment.parse?_text (m : Moment) : Moment.parse? m.text = some m := by
  rw [parse?, text, String.toList_ofList]
  simp only [Calendar.withoutZulu_chars, Calendar.strict?_numericText,
    Calendar.lenient?_numericText]
  split <;> rfl

end SchemaLang
