import SchemaLang.Number.Shortest

/-!
# Dates and moments

A `Date` is a day of the proleptic Gregorian calendar, a `Moment` a day, a time of that day and the
offset of its clock from universal time.  Both are valid by construction, and their texts are
those of RFC 3339; a year that does not have four digits is written with its sign.
-/

namespace SchemaLang

def Date.isLeapYear (year : Int) : Bool :=
  year % 4 == 0 && (year % 100 != 0 || year % 400 == 0)

def Date.daysInMonth (year : Int) (month : Nat) : Nat :=
  if month = 2 then (if isLeapYear year then 29 else 28)
  else if month = 4 ∨ month = 6 ∨ month = 9 ∨ month = 11 then 30
  else 31

def Date.minYear : Int := -262143

def Date.maxYear : Int := 262142

def Date.Valid (year : Int) (month day : Nat) : Prop :=
  minYear ≤ year ∧ year ≤ maxYear ∧ 1 ≤ month ∧ month ≤ 12 ∧ 1 ≤ day ∧ day ≤ daysInMonth year month

instance (year : Int) (month day : Nat) : Decidable (Date.Valid year month day) :=
  inferInstanceAs (Decidable (_ ∧ _))

structure Date where
  year : Int
  month : Nat
  day : Nat
  valid : Date.Valid year month day
  deriving DecidableEq

namespace Date

def of? (year : Int) (month day : Nat) : Option Date :=
  if h : Valid year month day then some ⟨year, month, day, h⟩ else none

/-- The first and the last day that can be represented. -/
def isFirst (d : Date) : Bool := d.year == minYear && d.month == 1 && d.day == 1

def isLast (d : Date) : Bool := d.year == maxYear && d.month == 12 && d.day == 31

/-- Digits filled up with zeros to a width. -/
def padded (width n : Nat) : List Char :=
  let digits := Nat.toDigits 10 n
  Number.zeros (width - digits.length) ++ digits

def yearText (year : Int) : List Char :=
  if 0 ≤ year ∧ year ≤ 9999 then padded 4 year.natAbs
  else (if year < 0 then '-' else '+') :: padded 4 year.natAbs

def chars (d : Date) : List Char :=
  yearText d.year ++ '-' :: (padded 2 d.month ++ '-' :: padded 2 d.day)

def text (d : Date) : String := String.ofList d.chars

end Date

/-- A time of day.  A minute may have a sixty-first second, numbered 60. -/
structure Clock where
  hour : Nat
  minute : Nat
  second : Nat
  nano : Nat
  valid : hour < 24 ∧ minute < 60 ∧ second ≤ 60 ∧ nano < 1000000000
  deriving DecidableEq

namespace Clock

def of? (hour minute second nano : Nat) : Option Clock :=
  if h : hour < 24 ∧ minute < 60 ∧ second ≤ 60 ∧ nano < 1000000000 then
    some ⟨hour, minute, second, nano, h⟩
  else none

def midnight : Clock := ⟨0, 0, 0, 0, by decide⟩

/-- Whole seconds since midnight; a leap second counts as the one before it. -/
def seconds (c : Clock) : Int := (c.hour * 60 + c.minute) * 60 + min c.second 59

/-- The fraction of a second with the fewest of 0, 3, 6 or 9 places that is exact. -/
def fractionText (nano : Nat) : List Char :=
  if nano = 0 then []
  else if nano % 1000000 = 0 then '.' :: Date.padded 3 (nano / 1000000)
  else if nano % 1000 = 0 then '.' :: Date.padded 6 (nano / 1000)
  else '.' :: Date.padded 9 nano

def chars (c : Clock) : List Char :=
  Date.padded 2 c.hour ++ ':' :: (Date.padded 2 c.minute ++ ':' ::
    (Date.padded 2 c.second ++ fractionText c.nano))

end Clock

/-- The offset is in minutes east of universal time; the moment itself must be a representable
day there too. -/
def Moment.Valid (date : Date) (clock : Clock) (offset : Int) : Prop :=
  -1440 < offset ∧ offset < 1440
    ∧ ¬(date.isFirst = true ∧ clock.seconds - offset * 60 < 0)
    ∧ ¬(date.isLast = true ∧ 86400 ≤ clock.seconds - offset * 60)

instance (date : Date) (clock : Clock) (offset : Int) :
    Decidable (Moment.Valid date clock offset) :=
  inferInstanceAs (Decidable (_ ∧ _))

structure Moment where
  date : Date
  clock : Clock
  offset : Int
  valid : Moment.Valid date clock offset
  deriving DecidableEq

namespace Moment

def of? (date : Date) (clock : Clock) (offset : Int) : Option Moment :=
  if h : Valid date clock offset then some ⟨date, clock, offset, h⟩ else none

def offsetText (offset : Int) : List Char :=
  if offset = 0 then ['Z']
  else
    (if offset < 0 then '-' else '+') ::
      (Date.padded 2 (offset.natAbs / 60) ++ ':' :: Date.padded 2 (offset.natAbs % 60))

def chars (m : Moment) : List Char :=
  m.date.chars ++ 'T' :: (m.clock.chars ++ offsetText m.offset)

def text (m : Moment) : String := String.ofList m.chars

end Moment

end SchemaLang
