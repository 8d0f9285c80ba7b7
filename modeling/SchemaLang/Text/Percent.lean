import SchemaLang.Text.Hex
import SchemaLang.Text.Utf8

/-!
# Percent coding

Every byte but the unreserved ones is written as a percent sign and two upper-case hexadecimal
digits.  Reading takes either case; a percent sign that two digits do not follow stands for itself.
-/

namespace SchemaLang.Text.Percent

/-- The bytes of letters, digits and `-`, `_`, `.`, `~` stand for themselves. -/
def isUnreserved (b : UInt8) : Bool :=
  (0x30 ≤ b && b ≤ 0x39) || (0x41 ≤ b && b ≤ 0x5A) || (0x61 ≤ b && b ≤ 0x7A)
    || b == 0x2D || b == 0x5F || b == 0x2E || b == 0x7E

def encodeByte (b : UInt8) : List UInt8 :=
  if isUnreserved b then [b]
  else [0x25, UInt8.ofNat (upperHex (b.toNat / 16)), UInt8.ofNat (upperHex (b.toNat % 16))]

def encodeBytes (bytes : List UInt8) : List UInt8 := bytes.flatMap encodeByte

def decodeBytes : List UInt8 → List UInt8
  | [] => []
  | 0x25 :: high :: low :: rest =>
    match hexValue? high.toNat, hexValue? low.toNat with
    | some h, some l => UInt8.ofNat (h * 16 + l) :: decodeBytes rest
    | _, _ => 0x25 :: decodeBytes (high :: low :: rest)
  | b :: rest => b :: decodeBytes rest

/-- The coded bytes are all ASCII, so each is a character. -/
def encode (s : String) : String :=
  String.ofList ((encodeBytes (toBytes s)).map fun b => Char.ofNat b.toNat)

/-- Reads coded text; what it stands for need not be well-formed. -/
def decode (s : String) : String := ofBytes (decodeBytes (toBytes s))

end SchemaLang.Text.Percent
