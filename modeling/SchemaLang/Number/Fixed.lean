import SchemaLang.Number.Shortest

/-!
# Text with a fixed number of places

`fixedText` writes a number rounded to six places, a tie to the even neighbour, and leaves out the
zeros at the end of the fraction, with the point when nothing follows it.
-/

namespace SchemaLang.Number

/-- A quotient rounded to the nearest natural number, a tie to the even one. -/
def roundDiv (num den : Nat) : Nat :=
  let q := num / den
  let twice := 2 * (num % den)
  if twice < den then q else if den < twice then q + 1 else q + q % 2

def places : Nat := 6

def finiteFixed (mantissa : Nat) (exponent : Int) : List Char :=
  let unit := Nat.pow 10 places
  let scaled :=
    roundDiv (mantissa * Nat.pow 2 exponent.toNat * unit) (Nat.pow 2 (-exponent).toNat)
  let fraction := Nat.toDigits 10 (scaled % unit)
  let padded := trimZeros (zeros (places - fraction.length) ++ fraction)
  let whole := Nat.toDigits 10 (scaled / unit)
  if padded.isEmpty then whole else whole ++ '.' :: padded

def fixedText (x : Float) : String :=
  match exact x with
  | .nan => "NaN"
  | .infinite negative => String.ofList (signed negative "inf".toList)
  | .finite negative m e => String.ofList (signed negative (finiteFixed m e))

end SchemaLang.Number
