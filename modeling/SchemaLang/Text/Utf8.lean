/-!
# Text from bytes

UTF-8 read strictly (`ofBytes?`) and with a substitute for what is ill-formed (`ofBytes`): each
maximal ill-formed piece becomes one U+FFFD, as the Unicode standard recommends.

* `ofBytes_toBytes`: well-formed text is read back unchanged.
-/

namespace SchemaLang.Text

def toBytes (s : String) : List UInt8 := s.toByteArray.data.toList

def ofBytes? (bytes : List UInt8) : Option String := String.fromUTF8? ⟨bytes.toArray⟩

def replacement : Char := '\uFFFD'

/-- A character of which some bytes have been read: their bits, how many bytes are still to come,
and the range that the next of them must lie in. -/
structure Begun where
  bits : Nat
  missing : Nat
  low : UInt8 := 0x80
  high : UInt8 := 0xBF

/-- What a leading byte begins.  The ranges of the second byte keep out characters that are longer
than need be, surrogates and what lies beyond Unicode. -/
def begin? (b : UInt8) : Option Begun :=
  if 0xC2 ≤ b && b ≤ 0xDF then some { bits := b.toNat % 0x20, missing := 1 }
  else if b == 0xE0 then some { bits := 0, missing := 2, low := 0xA0 }
  else if b == 0xED then some { bits := 0xD, missing := 2, high := 0x9F }
  else if 0xE1 ≤ b && b ≤ 0xEF then some { bits := b.toNat % 0x10, missing := 2 }
  else if b == 0xF0 then some { bits := 0, missing := 3, low := 0x90 }
  else if 0xF1 ≤ b && b ≤ 0xF3 then some { bits := b.toNat % 0x08, missing := 3 }
  else if b == 0xF4 then some { bits := 4, missing := 3, high := 0x8F }
  else none

/-- A character with one more byte read. -/
def Begun.next (u : Begun) (b : UInt8) : Begun :=
  { bits := u.bits * 0x40 + b.toNat % 0x40, missing := u.missing - 1 }

/-- A byte between characters: the characters it adds, and the one it begins. -/
def stepBetween (b : UInt8) : List Char × Option Begun :=
  if b < 0x80 then ([Char.ofNat b.toNat], none)
  else
    match begin? b with
    | some u => ([], some u)
    | none => ([replacement], none)

/-- A byte that does not continue a character breaks it off and is read anew. -/
def stepLossy : Option Begun → UInt8 → List Char × Option Begun
  | none, b => stepBetween b
  | some u, b =>
    if u.low ≤ b && b ≤ u.high then
      let u := u.next b
      if u.missing = 0 then ([Char.ofNat u.bits], none) else ([], some u)
    else
      let (cs, u) := stepBetween b
      (replacement :: cs, u)

def decodeLossy : Option Begun → List UInt8 → List Char
  | none, [] => []
  | some _, [] => [replacement]
  | u, b :: bytes =>
    let (cs, u) := stepLossy u b
    cs ++ decodeLossy u bytes

def ofBytes (bytes : List UInt8) : String :=
  match ofBytes? bytes with
  | some s => s
  | none => String.ofList (decodeLossy none bytes)

theorem ofBytes?_toBytes (s : String) : ofBytes? (toBytes s) = some s := by
  simp [ofBytes?, toBytes, String.fromUTF8?, s.isValidUTF8, String.fromUTF8]

theorem ofBytes_toBytes (s : String) : ofBytes (toBytes s) = s := by
  simp [ofBytes, ofBytes?_toBytes]

end SchemaLang.Text
