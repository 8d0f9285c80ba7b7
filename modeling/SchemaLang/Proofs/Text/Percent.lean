import SchemaLang.Text.Percent

/-!
# Percent coding is undone by reading

What is written is made of unreserved characters and percent signs only, so none of the characters
that a query is cut at come into it, except a point that stands for itself.

* `decode_encode`: every text is read back.
* `not_mem_encode`, `point_not_mem_encode`: what is not written.
* `point_mem_encode`: a point is not coded.
-/

namespace SchemaLang.Text

/-! ## The bytes of a text -/

theorem toBytes_eq_flatMap (s : String) : toBytes s = s.toList.flatMap String.utf8EncodeChar := by
  have h : toBytes (String.ofList s.toList) = s.toList.flatMap String.utf8EncodeChar := by
    rw [toBytes, String.toByteArray_ofList, List.utf8Encode]
    simp
  rwa [String.ofList_toList] at h

/-- Only a character below U+0080 has a byte below 0x80, which is itself. -/
theorem toNat_eq_of_mem_utf8EncodeChar {c : Char} {b : UInt8} (h : b ∈ String.utf8EncodeChar c)
    (hb : b.toNat < 128) : c.toNat = b.toNat := by
  rw [String.utf8EncodeChar] at h
  split at h
  · next hv =>
    have hc : c.toNat ≤ 127 := hv
    rw [List.mem_singleton.1 h, UInt8.toNat_ofNat']
    show c.toNat = c.toNat % 2 ^ 8
    omega
  · split at h
    · simp only [List.mem_cons, List.not_mem_nil, or_false] at h
      rcases h with rfl | rfl
      all_goals
        rw [UInt8.toNat_ofNat'] at hb
        omega
    · split at h
      · simp only [List.mem_cons, List.not_mem_nil, or_false] at h
        rcases h with rfl | rfl | rfl
        all_goals
          rw [UInt8.toNat_ofNat'] at hb
          omega
      · simp only [List.mem_cons, List.not_mem_nil, or_false] at h
        rcases h with rfl | rfl | rfl | rfl
        all_goals
          rw [UInt8.toNat_ofNat'] at hb
          omega

theorem toNat_ofNat_byte (b : UInt8) : (Char.ofNat b.toNat).toNat = b.toNat := by
  have hb : b.toNat < 256 := b.toNat_lt
  have hv : b.toNat.isValidChar := .inl (by omega)
  rw [Char.ofNat, dif_pos hv]
  rfl

theorem utf8EncodeChar_byte {b : UInt8} (h : b.toNat < 128) :
    String.utf8EncodeChar (Char.ofNat b.toNat) = [b] := by
  have hv : (Char.ofNat b.toNat).val.toNat = b.toNat := toNat_ofNat_byte b
  rw [String.utf8EncodeChar]
  simp only [hv]
  rw [if_pos (by omega), UInt8.ofNat_toNat]

theorem toBytes_ascii {bytes : List UInt8} (h : ∀ b ∈ bytes, b.toNat < 128) :
    toBytes (String.ofList (bytes.map fun b => Char.ofNat b.toNat)) = bytes := by
  rw [toBytes_eq_flatMap, String.toList_ofList]
  induction bytes with
  | nil => rfl
  | cons b bytes ih =>
    have hc := List.forall_mem_cons.1 h
    rw [List.map_cons, List.flatMap_cons, utf8EncodeChar_byte hc.1, ih hc.2]
    rfl

namespace Percent

/-! ## The bytes that are written -/

theorem isUnreserved_upperHex {n : Nat} (h : n < 16) :
    isUnreserved (UInt8.ofNat (upperHex n)) = true := by
  revert n
  decide

theorem lt_of_isUnreserved {b : UInt8} (h : isUnreserved b = true) : b.toNat < 128 := by
  simp only [isUnreserved, Bool.or_eq_true, Bool.and_eq_true, decide_eq_true_eq, beq_iff_eq,
    UInt8.le_iff_toNat_le, ← UInt8.toNat_inj, UInt8.toNat_ofNat] at h
  omega

theorem upperHex_ne_point {n : Nat} (h : n < 16) : UInt8.ofNat (upperHex n) ≠ 0x2E := by
  revert n
  decide

theorem hexValue?_toNat_upperHex {n : Nat} (h : n < 16) :
    hexValue? (UInt8.ofNat (upperHex n)).toNat = some n := by
  have hlt : upperHex n < 2 ^ 8 := by
    rw [upperHex]
    split <;> omega
  rw [UInt8.toNat_ofNat', Nat.mod_eq_of_lt hlt, hexValue?_upperHex h]

/-- What is written is an unreserved byte or a percent sign, and a point only where one stands. -/
theorem mem_encodeByte {a b : UInt8} (h : b ∈ encodeByte a) :
    (isUnreserved b = true ∨ b = 0x25) ∧ (b = 0x2E → a = 0x2E) := by
  have hlt := a.toNat_lt
  rw [encodeByte] at h
  split at h
  · next ha =>
    rw [List.mem_singleton.1 h]
    exact ⟨.inl ha, id⟩
  · simp only [List.mem_cons, List.not_mem_nil, or_false] at h
    rcases h with rfl | rfl | rfl
    · exact ⟨.inr rfl, fun h => absurd h (by decide)⟩
    · exact ⟨.inl (isUnreserved_upperHex (by omega)),
        fun h => absurd h (upperHex_ne_point (by omega))⟩
    · exact ⟨.inl (isUnreserved_upperHex (by omega)),
        fun h => absurd h (upperHex_ne_point (by omega))⟩

theorem decodeBytes_cons {b : UInt8} (h : b ≠ 0x25) (rest : List UInt8) :
    decodeBytes (b :: rest) = b :: decodeBytes rest := by
  rw [decodeBytes]
  exact fun _ _ _ hb _ => h hb

theorem decodeBytes_encodeByte (b : UInt8) (rest : List UInt8) :
    decodeBytes (encodeByte b ++ rest) = b :: decodeBytes rest := by
  have hlt := b.toNat_lt
  rw [encodeByte]
  split
  · next hu =>
    have hne : b ≠ 0x25 := by
      rintro rfl
      exact absurd hu (by decide)
    exact decodeBytes_cons hne rest
  · have hsum : b.toNat / 16 * 16 + b.toNat % 16 = b.toNat := by omega
    show decodeBytes (0x25 :: UInt8.ofNat (upperHex (b.toNat / 16))
      :: UInt8.ofNat (upperHex (b.toNat % 16)) :: rest) = _
    rw [decodeBytes, hexValue?_toNat_upperHex (by omega), hexValue?_toNat_upperHex (by omega)]
    simp only [hsum, UInt8.ofNat_toNat]

theorem decodeBytes_encodeBytes (bytes : List UInt8) : decodeBytes (encodeBytes bytes) = bytes := by
  induction bytes with
  | nil => rfl
  | cons b bytes ih =>
    rw [encodeBytes, List.flatMap_cons, decodeBytes_encodeByte]
    rw [encodeBytes] at ih
    rw [ih]

/-! ## Texts -/

theorem lt_of_mem_encodeBytes {bytes : List UInt8} {b : UInt8} (h : b ∈ encodeBytes bytes) :
    b.toNat < 128 := by
  obtain ⟨a, -, hb⟩ := List.mem_flatMap.1 h
  rcases (mem_encodeByte hb).1 with hu | rfl
  · exact lt_of_isUnreserved hu
  · decide

theorem decode_encode (s : String) : decode (encode s) = s := by
  rw [decode, encode, toBytes_ascii fun b hb => lt_of_mem_encodeBytes hb, decodeBytes_encodeBytes,
    ofBytes_toBytes]

theorem exists_of_mem_encode {s : String} {c : Char} (h : c ∈ (encode s).toList) :
    ∃ a ∈ toBytes s, ∃ b ∈ encodeByte a, c.toNat = b.toNat := by
  rw [encode, String.toList_ofList] at h
  obtain ⟨b, hb, rfl⟩ := List.mem_map.1 h
  obtain ⟨a, ha, hab⟩ := List.mem_flatMap.1 hb
  exact ⟨a, ha, b, hab, toNat_ofNat_byte b⟩

/-- Neither an ampersand nor an equals sign is written. -/
theorem not_mem_encode {c : Char} (hc : c = '&' ∨ c = '=') (s : String) :
    c ∉ (encode s).toList := by
  intro h
  obtain ⟨a, -, b, hb, he⟩ := exists_of_mem_encode h
  have hu := (mem_encodeByte hb).1
  rw [← UInt8.ofNat_toNat (x := b), ← he] at hu
  rcases hc with rfl | rfl
  · exact absurd hu (by decide)
  · exact absurd hu (by decide)

/-- A point is written for a point only. -/
theorem point_not_mem_encode {s : String} (hs : '.' ∉ s.toList) : '.' ∉ (encode s).toList := by
  intro h
  obtain ⟨a, ha, b, hb, he⟩ := exists_of_mem_encode h
  have hp : b = 0x2E := by
    rw [← UInt8.ofNat_toNat (x := b), ← he]
    rfl
  rw [(mem_encodeByte hb).2 hp, toBytes_eq_flatMap, List.mem_flatMap] at ha
  obtain ⟨c, hc, hmem⟩ := ha
  have hn : c.toNat = '.'.toNat := toNat_eq_of_mem_utf8EncodeChar hmem (by decide)
  exact hs (Char.toNat_inj.1 hn ▸ hc)

/-- A point stands for itself. -/
theorem point_mem_encode {s : String} (hs : '.' ∈ s.toList) : '.' ∈ (encode s).toList := by
  have hbyte : (0x2E : UInt8) ∈ toBytes s := by
    rw [toBytes_eq_flatMap]
    exact List.mem_flatMap.2 ⟨'.', hs, by decide⟩
  rw [encode, String.toList_ofList]
  exact List.mem_map.2 ⟨0x2E, List.mem_flatMap.2 ⟨_, hbyte, by decide⟩, rfl⟩

theorem isUnreserved_of_isDigit {c : Char} (hc : c.isDigit = true) :
    isUnreserved (UInt8.ofNat c.toNat) = true ∧ (UInt8.ofNat c.toNat).toNat = c.toNat := by
  have hn : 48 ≤ c.toNat ∧ c.toNat ≤ 57 := by
    simp only [Char.isDigit, Bool.and_eq_true, decide_eq_true_eq] at hc
    exact hc
  have hb : (UInt8.ofNat c.toNat).toNat = c.toNat := by
    rw [UInt8.toNat_ofNat']
    omega
  refine ⟨?_, hb⟩
  simp only [isUnreserved, Bool.or_eq_true, Bool.and_eq_true, decide_eq_true_eq,
    UInt8.le_iff_toNat_le, hb, UInt8.toNat_ofNat]
  omega

theorem encodeBytes_eq_self {bytes : List UInt8} (h : ∀ b ∈ bytes, isUnreserved b = true) :
    encodeBytes bytes = bytes := by
  induction bytes with
  | nil => rfl
  | cons b bytes ih =>
    obtain ⟨hb, hbs⟩ := List.forall_mem_cons.1 h
    have ih := ih hbs
    rw [encodeBytes] at ih ⊢
    rw [List.flatMap_cons, encodeByte, if_pos hb, ih]
    rfl

/-- Digits stand for themselves. -/
theorem encode_of_isDigit {s : String} (h : ∀ c ∈ s.toList, c.isDigit = true) : encode s = s := by
  have hchars : (s.toList.map fun c => UInt8.ofNat c.toNat).map (fun b => Char.ofNat b.toNat)
      = s.toList := by
    rw [List.map_map, List.map_congr_left (g := id), List.map_id]
    intro c hc
    rw [Function.comp_apply, (isUnreserved_of_isDigit (h c hc)).2, Char.ofNat_toNat]
    rfl
  have hu : ∀ b ∈ s.toList.map fun c => UInt8.ofNat c.toNat, isUnreserved b = true := by
    intro b hb
    obtain ⟨c, hc, rfl⟩ := List.mem_map.1 hb
    exact (isUnreserved_of_isDigit (h c hc)).1
  have hbytes := toBytes_ascii fun b hb => lt_of_isUnreserved (hu b hb)
  rw [hchars, String.ofList_toList] at hbytes
  rw [encode, hbytes, encodeBytes_eq_self hu, hchars, String.ofList_toList]

end Percent

end SchemaLang.Text
