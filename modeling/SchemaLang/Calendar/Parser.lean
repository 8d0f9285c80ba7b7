import SchemaLang.Calendar.Basic
import SchemaLang.Number.Reading

/-!
# Reading dates and moments

A moment is tried in the strict form of RFC 3339, then in eight lenient forms: the date and the
time separated by `T` or by white space, with or without seconds, with or without an offset; and
last as a date at midnight.  Where there is no offset it is zero, and a final `Z` is an offset of
zero.

In the lenient forms every number may have white space before it and fewer digits than it is
written with, and the hours and minutes of an offset may be separated by colons and white space
or by nothing.
-/

namespace SchemaLang.Calendar

open Text (isSpace trimStart)

def char? (c : Char) : List Char → Option (List Char)
  | [] => none
  | d :: cs => if d = c then some cs else none

/-- The number written by the digits in front, of which there must be `least` and at most `most`
are taken. -/
def digits? (least most : Nat) (cs : List Char) : Option (Nat × List Char) :=
  let digits := (cs.take most).takeWhile Char.isDigit
  if digits.length < least then none
  else some (Number.digitsValue digits, cs.drop digits.length)

/-- One or two digits, after white space. -/
def number? (cs : List Char) : Option (Nat × List Char) := digits? 1 2 (trimStart cs)

/-- A year has up to four digits, or any number of them after a sign. -/
def year? (cs : List Char) : Option (Int × List Char) :=
  match trimStart cs with
  | '-' :: cs => (digits? 1 cs.length cs).map fun (n, rest) => (-n, rest)
  | '+' :: cs => (digits? 1 cs.length cs).map fun (n, rest) => (n, rest)
  | cs => (digits? 1 4 cs).map fun (n, rest) => (n, rest)

def dateFrom (cs : List Char) : Option (Date × List Char) := do
  let (year, cs) ← year? cs
  let cs ← char? '-' cs
  let (month, cs) ← number? cs
  let cs ← char? '-' cs
  let (day, cs) ← number? cs
  let date ← Date.of? year month day
  pure (date, cs)

/-- Nanoseconds, from a point and at least one digit, if the point is there.  Digits after the
ninth are dropped. -/
def fraction? : List Char → Option (Nat × List Char)
  | '.' :: cs =>
    let digits := cs.takeWhile Char.isDigit
    let kept := digits.take 9
    if digits.isEmpty then none
    else some (Number.digitsValue kept * Nat.pow 10 (9 - kept.length), cs.dropWhile Char.isDigit)
  | cs => some (0, cs)

def clockFrom (withSeconds : Bool) (cs : List Char) : Option (Clock × List Char) := do
  let (hour, cs) ← number? cs
  let cs ← char? ':' cs
  let (minute, cs) ← number? cs
  if withSeconds then
    let cs ← char? ':' cs
    let (second, cs) ← number? cs
    let (nano, cs) ← fraction? cs
    let clock ← Clock.of? hour minute second nano
    pure (clock, cs)
  else
    let clock ← Clock.of? hour minute 0 0
    pure (clock, cs)

/-- The sign of an offset; the mathematical minus sign is one too. -/
def offsetSign? : List Char → Option (Bool × List Char)
  | '+' :: cs => some (false, cs)
  | '-' :: cs => some (true, cs)
  | '\u2212' :: cs => some (true, cs)
  | _ => none

/-- Minutes east of universal time; `separator` passes what stands between hours and minutes. -/
def offsetFrom (separator : List Char → Option (List Char)) (cs : List Char) :
    Option (Int × List Char) := do
  let (negative, cs) ← offsetSign? cs
  let (hours, cs) ← digits? 2 2 cs
  let cs ← separator cs
  let (minutes, cs) ← digits? 2 2 cs
  if 60 ≤ minutes then none
  else
    let offset : Int := hours * 60 + minutes
    pure (if negative then -offset else offset, cs)

def lenientSeparator (cs : List Char) : Option (List Char) :=
  some (cs.dropWhile fun c => c == ':' || isSpace c)

/-- What stands between the date and the time of the lenient forms. -/
inductive Joint
  | letter
  | space

def Joint.skip? : Joint → List Char → Option (List Char)
  | .letter, cs => char? 'T' cs
  | .space, cs => some (trimStart cs)

/-- One of the lenient forms, which must take the whole text. -/
def lenient? (joint : Joint) (withSeconds withOffset : Bool) (cs : List Char) : Option Moment := do
  let (date, cs) ← dateFrom cs
  let cs ← joint.skip? cs
  let (clock, cs) ← clockFrom withSeconds cs
  let (offset, cs) ← if withOffset then offsetFrom lenientSeparator (trimStart cs) else some (0, cs)
  if cs.isEmpty then Moment.of? date clock offset else none

/-- The strict form: all digits written, and a letter `T` of either case or one space. -/
def strict? (cs : List Char) : Option Moment := do
  let (year, cs) ← digits? 4 4 cs
  let cs ← char? '-' cs
  let (month, cs) ← digits? 2 2 cs
  let cs ← char? '-' cs
  let (day, cs) ← digits? 2 2 cs
  let cs ← match cs with
    | c :: cs => if c = 'T' ∨ c = 't' ∨ c = ' ' then some cs else none
    | [] => none
  let (hour, cs) ← digits? 2 2 cs
  let cs ← char? ':' cs
  let (minute, cs) ← digits? 2 2 cs
  let cs ← char? ':' cs
  let (second, cs) ← digits? 2 2 cs
  let (nano, cs) ← fraction? cs
  let (offset, cs) ← offsetFrom (char? ':') cs
  let date ← Date.of? year month day
  let clock ← Clock.of? hour minute second nano
  if cs.isEmpty then Moment.of? date clock offset else none

def dateAlone? (cs : List Char) : Option Date := do
  let (date, cs) ← dateFrom cs
  if cs.isEmpty then some date else none

def midnight? (cs : List Char) : Option Moment := do
  let date ← dateAlone? cs
  Moment.of? date Clock.midnight 0

/-- A final `Z`, of either case, written as an offset. -/
def withoutZulu (cs : List Char) : List Char :=
  match cs.getLast? with
  | some 'Z' | some 'z' => cs.dropLast ++ ['+', '0', '0', ':', '0', '0']
  | _ => cs

end Calendar

open Calendar in
def Moment.parse? (text : String) : Option Moment :=
  let cs := withoutZulu text.toList
  strict? cs
    <|> lenient? .letter true true cs
    <|> lenient? .space true true cs
    <|> lenient? .letter false true cs
    <|> lenient? .space false true cs
    <|> lenient? .letter true false cs
    <|> lenient? .space true false cs
    <|> lenient? .letter false false cs
    <|> lenient? .space false false cs
    <|> midnight? cs

/-- A date alone, or the day that a moment has on its own clock. -/
def Date.parse? (text : String) : Option Date :=
  Calendar.dateAlone? text.toList <|> (Moment.parse? text).map Moment.date

end SchemaLang
