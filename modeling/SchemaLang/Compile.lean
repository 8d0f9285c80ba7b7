import SchemaLang.Compile.State
import SchemaLang.Lint
import SchemaLang.Source.Continuation

/-!
# Compiling schemas

Inputs are compiled one after the other into one `Compilation`; `finish` adds what the linter
finds, each finding at the position of what it is about.
-/

namespace SchemaLang

namespace Compilation

/-- A compilation that adds to an existing type model. -/
def ofTypes (types : Types) : Compilation := { types }

def readLogical (file : String) (lines : List (Nat × List Char)) (c : Compilation) (k : Cursor) :
    Compilation × Cursor :=
  lines.foldl (fun (c, k) (n, text) => Compile.step ⟨file, n⟩ text c k) (c, k)

/-- Compiles the lines of an input. -/
def readLines (file : String) (lines : List (List Char)) (c : Compilation) : Compilation :=
  (c.readLogical file (Source.logicalLines lines) {}).1

/-- Compiles an input. -/
def read (file : String) (text : String) (c : Compilation) : Compilation :=
  c.readLines file (Text.lines text.toList)

/-- Where a finding is reported: at the member it is about, else at the type. -/
def positionOf (c : Compilation) (type : String) (member : Option String) : Position :=
  ((member.bind fun m => c.positions.get? (type ++ "." ++ m)) <|> c.positions.get? type).getD
    ⟨"", 1⟩

def located (c : Compilation) (f : Finding) : Diagnostic :=
  ⟨c.positionOf f.type f.member, f.message⟩

/-- Adds the findings of the linter. -/
def finish (c : Compilation) : Compilation :=
  { c with log := (c.types.lint.map c.located).reverse ++ c.log }

def diagnostics (c : Compilation) : List Diagnostic := Diagnostic.report c.log

def errors (c : Compilation) : List String := c.diagnostics.map Diagnostic.text

end Compilation

/-- The type model that a schema defines, or what is wrong with it. -/
def compile (text : String) : Except (List String) Types :=
  let c := ((∅ : Types) |> Compilation.ofTypes).read "" text |>.finish
  if c.errors.isEmpty then .ok c.types else .error c.errors

end SchemaLang
