import SchemaLang.Number.Binary64

/-!
# The shortest decimal text of a number

Of the decimals that are read back as the number, the one with the fewest digits is written, of
those the one nearest to the number, and of two that are equally near the one with the even last
digit.  All comparisons are between natural numbers.

A finite number is written positionally, with at least one place after the point, when its first
digit stands between the fifth place after the point and the sixteenth before it; otherwise with
an exponent.
-/

namespace SchemaLang.Number

/-- The numbers that are read as `mid`: between `low` and `high`, all three over `den`. -/
structure Rounding where
  low : Nat
  mid : Nat
  high : Nat
  den : Nat
  /-- Whether `low` and `high` themselves are read as `mid`. -/
  closed : Bool

/-- A tie goes to the even mantissa.  Below a power of two the next number is half as far away. -/
def rounding (mantissa : Nat) (exponent : Int) : Rounding :=
  let up := Nat.pow 2 exponent.toNat
  let halfStepDown :=
    if mantissa = normalMantissa ∧ minExponent < exponent then 1 else 2
  { low := (4 * mantissa - halfStepDown) * up
    mid := 4 * mantissa * up
    high := (4 * mantissa + 2) * up
    den := 4 * Nat.pow 2 (-exponent).toNat
    closed := mantissa % 2 == 0 }

/-- Ten to the `e` is the first number over the second. -/
def tenTo (e : Int) : Nat × Nat := (Nat.pow 10 e.toNat, Nat.pow 10 (-e).toNat)

def Rounding.contains (r : Rounding) (c : Nat) (e : Int) : Bool :=
  let (a, b) := tenTo e
  let value := c * a * r.den
  if r.closed then r.low * b ≤ value && value ≤ r.high * b
  else r.low * b < value && value < r.high * b

/-- Every number that is not zero has its first digit before this place after the point. -/
def farPlace : Nat := 330

/-- The place of the first digit: `mid` is at least ten to the `place - 1` and less than ten to
the `place`. -/
def Rounding.place (r : Rounding) : Int :=
  (Nat.toDigits 10 (r.mid * Nat.pow 10 farPlace / r.den)).length - farPlace

/-- The decimal with last place `e` that is read back, if there is one: `mid` lies between two
neighbours on that grid, and no decimal of the grid can be nearer than they are. -/
def Rounding.onGrid? (r : Rounding) (e : Int) : Option Nat :=
  let (a, b) := tenTo e
  let floor := r.mid * b / (r.den * a)
  match r.contains floor e, r.contains (floor + 1) e with
  | true, true =>
    let twice := 2 * (r.mid * b)
    let between := (2 * floor + 1) * (r.den * a)
    if twice < between then some floor
    else if between < twice then some (floor + 1)
    else some (floor + floor % 2)
  | true, false => some floor
  | false, true => some (floor + 1)
  | false, false => none

/-- Seventeen digits always suffice. -/
def Rounding.shortest (r : Rounding) : Nat × Int :=
  let place := r.place
  ((List.range 17).findSome? fun (n : Nat) =>
    let e := place - (n + 1)
    (r.onGrid? e).map fun c => (c, e)).getD (0, 0)

/-- Digits without the zeros at their end. -/
def trimZeros (digits : List Char) : List Char :=
  (digits.reverse.dropWhile (· == '0')).reverse

def zeros (n : Nat) : List Char := List.replicate n '0'

/-- The digits with the point after the first `point` of them. -/
def positional (digits : List Char) (point : Int) : List Char :=
  if point ≤ 0 then '0' :: '.' :: (zeros (-point).toNat ++ digits)
  else
    let whole := point.toNat
    if digits.length ≤ whole then digits ++ zeros (whole - digits.length) ++ ['.', '0']
    else digits.take whole ++ '.' :: digits.drop whole

/-- One digit before the point, and the sign of the exponent always written. -/
def scientific (digits : List Char) (point : Int) : List Char :=
  let fraction := if digits.length ≤ 1 then [] else '.' :: digits.drop 1
  let power := point - 1
  digits.take 1 ++ fraction ++ 'e' :: (if power < 0 then '-' else '+')
    :: Nat.toDigits 10 power.natAbs

def finiteText (mantissa : Nat) (exponent : Int) : List Char :=
  if mantissa = 0 then ['0', '.', '0']
  else
    let (c, e) := (rounding mantissa exponent).shortest
    let digits := Nat.toDigits 10 c
    let point := digits.length + e
    if -4 ≤ point ∧ point ≤ 16 then positional (trimZeros digits) point
    else scientific (trimZeros digits) point

def signed (negative : Bool) (cs : List Char) : List Char := if negative then '-' :: cs else cs

def floatText (x : Float) : String :=
  match exact x with
  | .nan => "NaN"
  | .infinite negative => String.ofList (signed negative "inf".toList)
  | .finite negative m e => String.ofList (signed negative (finiteText m e))

end SchemaLang.Number
