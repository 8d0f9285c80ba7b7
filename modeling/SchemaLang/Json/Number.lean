import SchemaLang.Json.Basic
import SchemaLang.Number.Reading

/-!
# Numbers in JSON text

The digits are gathered into a significand of at most 64 bits; those that no longer fit only count
as places.  The significand is then rounded to binary64 and multiplied or divided by a power of
ten.  A number without point and exponent whose digits all fit is a whole number, except minus
zero and what is below the least 64-bit integer.
-/

namespace SchemaLang.Json

inductive Fault
  /-- The text ends where a value is expected or before it is complete. -/
  | endOfText
  | malformed
  /-- Arrays and objects are nested too deeply. -/
  | tooDeep
  /-- No finite binary64 number is near. -/
  | outOfRange
  deriving DecidableEq, Repr

/-- What a reader answers: what it has read and what is left of the text. -/
abbrev Parsed (α : Type) := Except Fault (α × List Char)

/-- The significand after as many of the digits as fit, and how many those are. -/
def absorb (significand : Nat) : List Char → Nat × Nat
  | [] => (significand, 0)
  | c :: digits =>
    let next := significand * 10 + (c.toNat - '0'.toNat)
    if next < UInt64.size then
      let (s, taken) := absorb next digits
      (s, taken + 1)
    else (significand, 0)

def powerOfTen (n : Nat) : Float := Float.ofScientific 1 false n

/-- The largest power of ten that is a binary64 number. -/
def maxPower : Nat := 308

def divideByPower (x : Float) (n : Nat) : Float :=
  if n ≤ maxPower then x / powerOfTen n
  else if x == 0.0 then x
  else divideByPower (x / powerOfTen maxPower) (n - maxPower)
termination_by n
decreasing_by
  simp only [maxPower] at *
  omega

/-- The significand times ten to the `e`. -/
def scaled? (significand : Nat) (e : Int) : Option Float :=
  let x := Float.ofNat significand
  if e < 0 then some (divideByPower x e.natAbs)
  else if e.natAbs ≤ maxPower then
    let y := x * powerOfTen e.natAbs
    if y.isFinite then some y else none
  else if significand = 0 then some x
  else none

def takeDigits (cs : List Char) : List Char × List Char :=
  (cs.takeWhile Char.isDigit, cs.dropWhile Char.isDigit)

/-- The digits after a point, if there is one. -/
def readFraction : List Char → Parsed (Option (List Char))
  | '.' :: cs =>
    match takeDigits cs with
    | ([], []) => .error .endOfText
    | ([], _) => .error .malformed
    | (digits, rest) => .ok (some digits, rest)
  | cs => .ok (none, cs)

def readExponentDigits (negative : Bool) (cs : List Char) : Parsed (Option Int) :=
  match takeDigits cs with
  | ([], []) => .error .endOfText
  | ([], _) => .error .malformed
  | (digits, rest) =>
    let n : Int := Number.digitsValue digits
    .ok (some (if negative then -n else n), rest)

/-- The exponent, if its mark is there. -/
def readExponent : List Char → Parsed (Option Int)
  | c :: cs =>
    if c = 'e' ∨ c = 'E' then
      match cs with
      | '-' :: cs => readExponentDigits true cs
      | '+' :: cs => readExponentDigits false cs
      | cs => readExponentDigits false cs
    else .ok (none, c :: cs)
  | [] => .ok (none, [])

def whole (negative : Bool) (significand : Nat) : Json :=
  if ¬negative then .integer significand
  else if 0 < significand ∧ significand ≤ Nat.pow 2 63 then .integer (-significand)
  else .float (-(Float.ofNat significand))

/-- An unsigned number; `negative` says whether a minus sign went before. -/
def readUnsigned (negative : Bool) (cs : List Char) : Except Fault (Json × List Char) := do
  let (digits, rest) := takeDigits cs
  match digits with
  | [] => .error (if rest.isEmpty then .endOfText else .malformed)
  | '0' :: _ :: _ => .error .malformed
  | digits =>
    let (fraction, rest) ← readFraction rest
    let (exponent, rest) ← readExponent rest
    let (significand, taken) := absorb 0 digits
    if fraction.isNone && exponent.isNone && taken == digits.length then
      pure (whole negative significand, rest)
    else
      let (significand, places) := absorb significand (fraction.getD [])
      let e : Int := exponent.getD 0 + (digits.length - taken : Nat) - places
      match scaled? significand e with
      | none => .error .outOfRange
      | some x => pure (.float (if negative then -x else x), rest)

def readNumber : List Char → Parsed Json
  | '-' :: cs => readUnsigned true cs
  | cs => readUnsigned false cs

end SchemaLang.Json
