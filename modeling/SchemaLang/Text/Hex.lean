/-!
# Hexadecimal digits
-/

namespace SchemaLang.Text

/-- The value of the hexadecimal digit, of either case, with this code point. -/
def hexValue? (code : Nat) : Option Nat :=
  if 0x30 ≤ code ∧ code ≤ 0x39 then some (code - 0x30)
  else if 0x41 ≤ code ∧ code ≤ 0x46 then some (code - 0x37)
  else if 0x61 ≤ code ∧ code ≤ 0x66 then some (code - 0x57)
  else none

/-- The code point of the upper-case digit of a number below sixteen. -/
def upperHex (n : Nat) : Nat := if n < 10 then 0x30 + n else 0x37 + n

theorem hexValue?_upperHex {n : Nat} (h : n < 16) : hexValue? (upperHex n) = some n := by
  rw [hexValue?, upperHex]
  split <;> grind

end SchemaLang.Text
