import SchemaLang.Model.Basic
import SchemaLang.Validate.Failure

/-!
# Checking attributes

Attributes are checked on a value that already has its type.  Null needs permission; every other
value has to meet all bounds, and a value without the measure a bound is about does not meet it.
-/

namespace SchemaLang

/-- The measure of a value that a bound compares. -/
def Value.measured? (v : Value) : Measure → Option Float
  | .number => v.number?
  | .length => v.length?.map Float.ofNat

def Bound.accepts (b : Bound) (v : Value) : Bool := (v.measured? b.measure).any b.holds

def allowsNull (attr : Option Attributes) : Bool := attr.any Attributes.nullable

/-- The first bound that a value does not meet. -/
def brokenBound? (attr : Option Attributes) (v : Value) : Option Bound :=
  attr.bind fun a => a.bounds.find? fun b => !b.accepts v

/-- Why a value does not meet a bound. -/
def Bound.cause (b : Bound) (v : Value) : Cause :=
  if (v.measured? b.measure).isNone then .unmeasured b else .bound b

def checkAttributes (ty : TypeRef) (attr : Option Attributes) (v : Value) (path : Path) :
    Except Failure Unit :=
  if v.isNull then
    if allowsNull attr then .ok () else .error (.invalid v path ty.name .null)
  else
    match brokenBound? attr v with
    | none => .ok ()
    | some b => .error (.invalid v path ty.name (b.cause v))

end SchemaLang
