import SchemaLang.Text.Hex

/-!
# Unique identifiers

A UUID is 128 bits.  It is written as 32 lower-case hexadecimal digits in groups of 8, 4, 4, 4 and
12, and read in four forms: grouped, grouped in braces, grouped after `urn:uuid:`, and without
groups.
-/

namespace SchemaLang

structure Uuid where
  bits : BitVec 128
  deriving DecidableEq

namespace Uuid

/-- The number that hexadecimal digits write, with `n` written before them. -/
def hexNumber? (n : Nat) : List Char → Option Nat
  | [] => some n
  | c :: cs => (Text.hexValue? c.toNat).bind fun d => hexNumber? (n * 16 + d) cs

def ofDigits? (cs : List Char) : Option Uuid :=
  if cs.length = 32 then (hexNumber? 0 cs).map fun n => ⟨BitVec.ofNat 128 n⟩ else none

/-- The digits of a grouped text. -/
def ungroup? (cs : List Char) : Option (List Char) :=
  if cs.length = 36 ∧ cs[8]? = some '-' ∧ cs[13]? = some '-' ∧ cs[18]? = some '-'
      ∧ cs[23]? = some '-' then
    some (cs.take 8 ++ (cs.drop 9).take 4 ++ (cs.drop 14).take 4 ++ (cs.drop 19).take 4
      ++ cs.drop 24)
  else none

def grouped? (cs : List Char) : Option Uuid := (ungroup? cs).bind ofDigits?

def urn : List Char := "urn:uuid:".toList

def parse? (text : String) : Option Uuid :=
  let cs := text.toList
  if cs.length = 32 then ofDigits? cs
  else if cs.length = 36 then grouped? cs
  else if cs.length = 38 ∧ cs.head? = some '\x7b' ∧ cs.getLast? = some '\x7d' then
    grouped? (cs.drop 1).dropLast
  else if cs.length = 45 ∧ (cs.take 9).map Char.toLower = urn then grouped? (cs.drop 9)
  else none

/-- The `count` lowest hexadecimal digits of a number. -/
def hexDigits (count n : Nat) : List Char :=
  (List.range count).reverse.map fun i => Nat.digitChar (n / Nat.pow 16 i % 16)

def chars (u : Uuid) : List Char :=
  let digits := hexDigits 32 u.bits.toNat
  digits.take 8 ++ '-' :: ((digits.drop 8).take 4 ++ '-' :: ((digits.drop 12).take 4 ++ '-'
    :: ((digits.drop 16).take 4 ++ '-' :: digits.drop 20)))

def text (u : Uuid) : String := String.ofList u.chars

end Uuid

end SchemaLang
