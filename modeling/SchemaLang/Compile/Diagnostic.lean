import SchemaLang.Model.Basic
import SchemaLang.Text.Space

/-!
# Diagnostics

A diagnostic is a message about a line of a file.  Diagnostics are reported in the order of file,
line and message, each once.

* `mem_report`: the report has the diagnostics that were made, and no others.
-/

namespace SchemaLang

/-- What can be wrong with a line on its own. -/
inductive Fault
  | unreadable
  /-- A count that does not fit into 64 bits. -/
  | attributeValue (digits : List Char)
  | actionRedefined (name : String)
  | typeRedefined (name : String)
  | sectionRedefined (s : Section)
  | urlsRedefined
  | duplicateUrl (method : String) (path : Option String)
  deriving DecidableEq

def Fault.message : Fault → String
  | .unreadable => "Syntax error"
  | .attributeValue digits => "Invalid attribute value '" ++ String.ofList digits ++ "'"
  | .actionRedefined name => "Redefinition of action '" ++ name ++ "'"
  | .typeRedefined name => "Redefinition of type '" ++ name ++ "'"
  | .sectionRedefined s => "Redefinition of action " ++ s.name
  | .urlsRedefined => "Redefinition of action urls"
  | .duplicateUrl method path =>
    "Duplicate URL: " ++ String.ofList (Text.trimEnd (method ++ " " ++ path.getD "").toList)

structure Position where
  file : String
  line : Nat
  deriving DecidableEq, Repr

structure Diagnostic where
  position : Position
  message : String
  deriving DecidableEq, Repr

namespace Diagnostic

def text (d : Diagnostic) : String :=
  d.position.file ++ ":" ++ toString d.position.line ++ ": error: " ++ d.message

/-- The order by file, line and message. -/
def before (d e : Diagnostic) : Bool :=
  if d.position.file = e.position.file then
    if d.position.line = e.position.line then d.message < e.message
    else d.position.line < e.position.line
  else d.position.file < e.position.file

/-- Puts a diagnostic in its place, unless it is there already. -/
def insert (d : Diagnostic) : List Diagnostic → List Diagnostic
  | [] => [d]
  | e :: rest =>
    if d = e then e :: rest else if d.before e then d :: e :: rest else e :: insert d rest

/-- Diagnostics in order, each once. -/
def report (log : List Diagnostic) : List Diagnostic := log.foldr insert []

theorem mem_insert {d e : Diagnostic} {l : List Diagnostic} : e ∈ insert d l ↔ e = d ∨ e ∈ l := by
  induction l with
  | nil => simp [insert]
  | cons f rest ih =>
    rw [insert]
    split
    · next h => simp [h]
    · split
      · simp
      · simp only [List.mem_cons, ih]
        exact or_left_comm

theorem mem_report {d : Diagnostic} {log : List Diagnostic} : d ∈ report log ↔ d ∈ log := by
  induction log with
  | nil => simp [report]
  | cons e log ih =>
    have : report (e :: log) = insert e (report log) := rfl
    rw [this, mem_insert, ih, List.mem_cons]

end Diagnostic

end SchemaLang
