import SchemaLang.Bootstrap
import SchemaLang.Lint
import SchemaLang.Model.Decode
import SchemaLang.Validate

/-!
# Validating type models

A value is a type model when it has the shape that `Bootstrap.types` describes and the linter finds
nothing in the model that it writes.
-/

namespace SchemaLang

inductive ModelFailure
  /-- The value does not have the shape of a type model. -/
  | shape (failure : Failure)
  /-- The value has the shape, but writes no type model. -/
  | unreadable
  | findings (findings : List Finding)

namespace ModelFailure

/-- Findings are reported in order, one to a line. -/
def message : ModelFailure → String
  | shape failure => failure.message
  | unreadable => "Invalid type model"
  | findings fs => "\n".intercalate ((fs.mergeSort Finding.le).map Finding.message)

def member? : ModelFailure → Option String
  | shape failure => failure.member?
  | _ => none

end ModelFailure

/-- Validates the shape of a value and reads what it writes. -/
def readShaped {α : Type} (name : String) (read : Json → Option α) (v : Value) :
    Except ModelFailure α :=
  match Bootstrap.types.validateAs name v with
  | .error failure => .error (.shape failure)
  | .ok w => (read w.toJson).elim (.error .unreadable) .ok

/-- A type model in which the linter finds nothing. -/
def Types.checked (types : Types) : Except ModelFailure Types :=
  match types.lint with
  | [] => .ok types
  | findings => .error (.findings findings)

/-- The type model that a value writes. -/
def Types.ofValue (v : Value) : Except ModelFailure Types := do
  let types ← readShaped "Types" Types.ofJson? v
  types.checked

/-- The titled type model that a value writes. -/
def TypeModel.ofValue (v : Value) : Except ModelFailure TypeModel := do
  let model ← readShaped "TypeModel" TypeModel.ofJson? v
  let types ← model.types.checked
  pure { model with types }

end SchemaLang
