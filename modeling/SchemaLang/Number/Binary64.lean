/-!
# What a binary64 number is

`exact` takes a `Float` apart into its sign and the natural number times a power of two that it
stands for, so that texts of it can be computed in exact arithmetic.
-/

namespace SchemaLang.Number

inductive Exact
  | nan
  | infinite (negative : Bool)
  /-- The magnitude is `mantissa` times two to the `exponent`. -/
  | finite (negative : Bool) (mantissa : Nat) (exponent : Int)
  deriving DecidableEq, Repr

/-- The least exponent, which zero and the subnormal numbers have too. -/
def minExponent : Int := -1074

/-- The least mantissa of a normal number. -/
def normalMantissa : Nat := Nat.pow 2 52

def exact (x : Float) : Exact :=
  let bits := x.toBits.toNat
  let negative := decide (Nat.pow 2 63 ≤ bits)
  let field := bits / normalMantissa % Nat.pow 2 11
  let fraction := bits % normalMantissa
  if field = Nat.pow 2 11 - 1 then
    if fraction = 0 then .infinite negative else .nan
  else if field = 0 then .finite negative fraction minExponent
  else .finite negative (normalMantissa + fraction) (minExponent + (field - 1 : Nat))

/-- The integer that a number is, if it is one. -/
def integral? (x : Float) : Option Int :=
  match exact x with
  | .finite negative m e =>
    let scale := Nat.pow 2 (-e).toNat
    if m % scale = 0 then
      let n : Int := (m * Nat.pow 2 e.toNat / scale : Nat)
      some (if negative then -n else n)
    else none
  | _ => none

end SchemaLang.Number
