import Mathlib.Algebra.Group.Nat.Defs
import SchemaLang.Uuid

/-!
# Identifiers are read back

* `Uuid.parse?_text`: an identifier is read back from its text.
-/

namespace SchemaLang.Uuid

theorem hexValue?_digitChar {d : Nat} (h : d < 16) :
    Text.hexValue? (Nat.digitChar d).toNat = some d := by
  revert d
  decide

theorem hexDigits_succ (k n : Nat) :
    hexDigits (k + 1) n = Nat.digitChar (n / 16 ^ k % 16) :: hexDigits k n := by
  rw [hexDigits, List.range_succ, List.reverse_concat, List.map_cons, hexDigits]
  rfl

theorem length_hexDigits (k n : Nat) : (hexDigits k n).length = k := by
  rw [hexDigits, List.length_map, List.length_reverse, List.length_range]

theorem hexNumber?_hexDigits (a k n : Nat) :
    hexNumber? a (hexDigits k n) = some (a * 16 ^ k + n % 16 ^ k) := by
  induction k generalizing a with
  | zero =>
    show some a = _
    rw [Nat.pow_zero, Nat.mod_one, Nat.mul_one, Nat.add_zero]
  | succ k ih =>
    have hd : n % 16 ^ (k + 1) = 16 ^ k * (n / 16 ^ k % 16) + n % 16 ^ k := by
      rw [Nat.pow_succ, Nat.mod_mul, Nat.add_comm]
    rw [hexDigits_succ, hexNumber?, hexValue?_digitChar (Nat.mod_lt _ (by decide)),
      Option.bind_some, ih, hd]
    rw [Nat.pow_succ, Nat.add_mul, Nat.mul_assoc, Nat.mul_comm 16, Nat.mul_comm (n / 16 ^ k % 16),
      Nat.add_assoc]

theorem ofDigits?_hexDigits (u : Uuid) : ofDigits? (hexDigits 32 u.bits.toNat) = some u := by
  have hlt : u.bits.toNat < 16 ^ 32 := u.bits.isLt
  rw [ofDigits?, if_pos (length_hexDigits _ _), hexNumber?_hexDigits, Nat.mod_eq_of_lt hlt]
  simp

theorem ungroup?_chars {a b c d e : List Char} (ha : a.length = 8) (hb : b.length = 4)
    (hc : c.length = 4) (hd : d.length = 4) (he : e.length = 12) :
    ungroup? (a ++ '-' :: (b ++ '-' :: (c ++ '-' :: (d ++ '-' :: e))))
      = some (a ++ b ++ c ++ d ++ e) := by
  rw [ungroup?, if_pos]
  · simp (disch := omega) [List.drop_append, List.drop_eq_nil_of_le, ha, hb, hc, hd]
  · simp [ha, hb, hc, hd, he]

theorem length_chars (u : Uuid) : u.chars.length = 36 := by
  simp [chars, length_hexDigits]

/-- The groups of a text, put together again. -/
theorem take_drop_append (n k : Nat) (digits : List Char) :
    (digits.drop n).take k ++ digits.drop (n + k) = digits.drop n := by
  rw [← List.drop_drop, List.take_append_drop]

theorem grouped?_chars (u : Uuid) : grouped? u.chars = some u := by
  have hl := length_hexDigits 32 u.bits.toNat
  rw [grouped?, chars, ungroup?_chars (by simp [hl]) (by simp [hl]) (by simp [hl])
    (by simp [hl]) (by simp [hl]), Option.bind_some]
  simp only [List.append_assoc]
  rw [take_drop_append 16 4, take_drop_append 12 4, take_drop_append 8 4, List.take_append_drop]
  exact ofDigits?_hexDigits u

theorem parse?_text (u : Uuid) : parse? u.text = some u := by
  rw [parse?, text, String.toList_ofList, if_neg (by simp [length_chars]),
    if_pos (length_chars u), grouped?_chars]

end SchemaLang.Uuid
