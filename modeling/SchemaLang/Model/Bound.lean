import SchemaLang.Number.Fixed

/-!
# Bounds and attributes

A bound compares a number, or the length of a text, an array or an object, with a constant.  The
attributes at the use of a type are its bounds, one for each comparison and measure, and whether
null is allowed there.
-/

namespace SchemaLang

inductive Comparison
  | eq
  | lt
  | lte
  | gt
  | gte
  deriving DecidableEq, Repr

namespace Comparison

/-- In the order in which bounds are checked. -/
def all : List Comparison := [.eq, .lt, .lte, .gt, .gte]

/-- The operator as it is written in a schema. -/
def operator : Comparison → String
  | .eq => "=="
  | .lt => "<"
  | .lte => "<="
  | .gt => ">"
  | .gte => ">="

def ofOperator? (text : String) : Option Comparison := all.find? fun c => c.operator == text

theorem operator_of_ofOperator? {c : Comparison} {text : String}
    (h : ofOperator? text = some c) : c.operator = text := by
  simpa using List.find?_some h

/-- Nothing compares with what is not a number. -/
def holds (c : Comparison) (x bound : Float) : Bool :=
  match c with
  | .eq => x == bound
  | .lt => x < bound
  | .lte => x ≤ bound
  | .gt => bound < x
  | .gte => bound ≤ x

end Comparison

/-- At most one constant for every comparison. -/
structure Bounds (α : Type) where
  eq : Option α := none
  lt : Option α := none
  lte : Option α := none
  gt : Option α := none
  gte : Option α := none
  deriving DecidableEq, Repr

namespace Bounds

variable {α : Type}

def get? (b : Bounds α) : Comparison → Option α
  | .eq => b.eq
  | .lt => b.lt
  | .lte => b.lte
  | .gt => b.gt
  | .gte => b.gte

def set (b : Bounds α) (c : Comparison) (a : α) : Bounds α :=
  match c with
  | .eq => { b with eq := some a }
  | .lt => { b with lt := some a }
  | .lte => { b with lte := some a }
  | .gt => { b with gt := some a }
  | .gte => { b with gte := some a }

def toList (b : Bounds α) : List (Comparison × α) :=
  Comparison.all.filterMap fun c => (b.get? c).map fun a => (c, a)

theorem get?_set (b : Bounds α) (c d : Comparison) (a : α) :
    (b.set c a).get? d = if c = d then some a else b.get? d := by
  cases c <;> cases d <;> rfl

theorem mem_toList {b : Bounds α} {c : Comparison} {a : α} :
    (c, a) ∈ b.toList ↔ b.get? c = some a := by
  have hc : c ∈ Comparison.all := by cases c <;> decide
  simp only [toList, List.mem_filterMap, Option.map_eq_some_iff, Prod.mk.injEq]
  constructor
  · rintro ⟨d, _, e, h, rfl, rfl⟩
    exact h
  · exact fun h => ⟨c, hc, a, h, rfl, rfl⟩

end Bounds

/-- What of a value a bound is about. -/
inductive Measure
  | number
  | length
  deriving DecidableEq, Repr

structure Bound where
  measure : Measure
  comparison : Comparison
  value : Float
  deriving DecidableEq

namespace Bound

/-- The comparison as it is written in a schema. -/
def operator (b : Bound) : String :=
  match b.measure with
  | .number => b.comparison.operator
  | .length => "len " ++ b.comparison.operator

def describe (b : Bound) : String := b.operator ++ " " ++ Number.fixedText b.value

def holds (b : Bound) (x : Float) : Bool := b.comparison.holds x b.value

end Bound

structure Attributes where
  nullable : Bool := false
  number : Bounds Float := {}
  length : Bounds UInt64 := {}
  deriving DecidableEq

namespace Attributes

/-- The bounds in the order in which they are checked. -/
def bounds (a : Attributes) : List Bound :=
  a.number.toList.map (fun (c, x) => ⟨.number, c, x⟩)
    ++ a.length.toList.map (fun (c, n) => ⟨.length, c, Float.ofNat n.toNat⟩)

def setNumber (a : Attributes) (c : Comparison) (x : Float) : Attributes :=
  { a with number := a.number.set c x }

def setLength (a : Attributes) (c : Comparison) (n : UInt64) : Attributes :=
  { a with length := a.length.set c n }

end Attributes

end SchemaLang
