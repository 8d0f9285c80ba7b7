import SchemaLang.Model.Basic
import SchemaLang.Number.Reading
import SchemaLang.Source.Scan

/-!
# Type expressions

`name(...)` is a type with attributes, `name(...)[...]` an array of it, `name(...){...}` a dict of
it, and `key(...) : name(...){...}` a dict with a key type.  An expression is kept as it is
written; `TypeExpr.type?` says what it means, unless a count in it does not fit into 64 bits.
-/

namespace SchemaLang.Source

/-- One attribute as it is written. -/
inductive Clause
  | nullable
  | number (c : Comparison) (text : List Char)
  | length (c : Comparison) (digits : List Char)
  deriving DecidableEq

/-- The longer operators are tried before those they start with. -/
def comparison? (cs : List Char) : Option (Comparison × List Char) :=
  ["<=", "<", ">=", ">", "=="].findSome? fun operator => do
    let rest ← word? operator.toList cs
    let c ← Comparison.ofOperator? operator
    pure (c, rest)

/-- Digits after a point, if both are there. -/
def places (cs : List Char) : List Char × List Char :=
  match cs with
  | '.' :: rest =>
    match digits? rest with
    | some (digits, rest) => ('.' :: digits, rest)
    | none => ([], cs)
  | _ => ([], cs)

def unsignedNumber? (cs : List Char) : Option (List Char × List Char) :=
  (digits? cs).map fun (whole, rest) =>
    let (fraction, rest) := places rest
    (whole ++ fraction, rest)

def number? : List Char → Option (List Char × List Char)
  | '-' :: cs => (unsignedNumber? cs).map fun (text, rest) => ('-' :: text, rest)
  | cs => unsignedNumber? cs

def nullableClause? (cs : List Char) : Option (Clause × List Char) :=
  (word? "nullable".toList cs).map fun rest => (.nullable, rest)

def lengthClause? (cs : List Char) : Option (Clause × List Char) := do
  let rest ← word? "len".toList cs
  let (c, rest) ← comparison? (skipBlanks rest)
  let (digits, rest) ← digits? (skipBlanks rest)
  pure (.length c digits, rest)

def numberClause? (cs : List Char) : Option (Clause × List Char) := do
  let (c, rest) ← comparison? cs
  let (text, rest) ← number? (skipBlanks rest)
  pure (.number c text, rest)

def clause? (cs : List Char) : Option (Clause × List Char) :=
  nullableClause? cs <|> lengthClause? cs <|> numberClause? cs

/-- Attributes between brackets, perhaps none. -/
def clauses? (opening closing : Char) (cs : List Char) : Option (List Clause × List Char) := do
  let rest ← word? [opening] cs
  let inner := skipBlanks rest
  let (clauses, rest) := (separated clause? inner).getD ([], inner)
  let rest ← word? [closing] (skipBlanks rest)
  pure (clauses, rest)

/-- Attributes in parentheses, where they stand; parentheses are not empty. -/
def ownClauses (cs : List Char) : List Clause × List Char :=
  match clauses? '(' ')' (skipBlanks cs) with
  | some (clause :: clauses, rest) => (clause :: clauses, rest)
  | _ => ([], cs)

/-- What a type expression makes of the type in front of it. -/
inductive Container
  | plain
  | array (clauses : List Clause)
  | dict (clauses : List Clause)
  /-- The type in front is the key type. -/
  | keyed (value : String) (valueClauses : List Clause) (clauses : List Clause)
  deriving DecidableEq

structure TypeExpr where
  name : String
  clauses : List Clause
  container : Container
  deriving DecidableEq

def array? (cs : List Char) : Option (Container × List Char) :=
  (clauses? '[' ']' (skipBlanks cs)).map fun (clauses, rest) => (.array clauses, rest)

def dict? (cs : List Char) : Option (Container × List Char) :=
  (clauses? '\x7b' '\x7d' (skipBlanks cs)).map fun (clauses, rest) => (.dict clauses, rest)

def keyed? (cs : List Char) : Option (Container × List Char) := do
  let rest ← word? [':'] (skipBlanks cs)
  let (value, rest) ← name? (skipBlanks rest)
  let (valueClauses, rest) := ownClauses rest
  let (clauses, rest) ← clauses? '\x7b' '\x7d' (skipBlanks rest)
  pure (.keyed value valueClauses clauses, rest)

def container (cs : List Char) : Container × List Char :=
  ((array? cs <|> keyed? cs <|> dict? cs).getD (.plain, cs))

def typeExpr? (cs : List Char) : Option (TypeExpr × List Char) :=
  (name? cs).map fun (name, rest) =>
    let (clauses, rest) := ownClauses rest
    let (container, rest) := container rest
    ({ name, clauses, container }, rest)

/-! ## Meaning -/

/-- Sets one attribute; fails with the digits of a count that does not fit. -/
def Clause.apply? (a : Attributes) : Clause → Except (List Char) Attributes
  | .nullable => .ok { a with nullable := true }
  | .number c text => .ok (a.setNumber c ((Number.float? text).getD 0.0))
  | .length c digits =>
    match Number.uint64? digits with
    | some n => .ok (a.setLength c n)
    | none => .error digits

/-- A count is taken if it fits. -/
theorem Clause.apply_length_eq_ok_iff {c : Comparison} {digits : List Char} {a b : Attributes} :
    Clause.apply? a (.length c digits) = .ok b
      ↔ ∃ n, Number.uint64? digits = some n ∧ a.setLength c n = b := by
  unfold Clause.apply?
  cases hn : Number.uint64? digits <;> simp [hn]

/-- The attributes that clauses set, a later one replacing an earlier one of its kind.  No clauses
are no attributes. -/
def attributes? : List Clause → Except (List Char) (Option Attributes)
  | [] => .ok none
  | clauses => (clauses.foldlM Clause.apply? {}).map some

/-- The type an expression stands for, with the attributes of the type as a whole. -/
def TypeExpr.type? (e : TypeExpr) : Except (List Char) (TypeRef × Option Attributes) := do
  let own ← attributes? e.clauses
  match e.container with
  | .plain => pure (TypeRef.ofName e.name, own)
  | .array clauses =>
    let outer ← attributes? clauses
    pure (.array (TypeRef.ofName e.name) own, outer)
  | .dict clauses =>
    let outer ← attributes? clauses
    pure (.dict (TypeRef.ofName e.name) own none none, outer)
  | .keyed value valueClauses clauses =>
    let valueAttr ← attributes? valueClauses
    let outer ← attributes? clauses
    pure (.dict (TypeRef.ofName value) valueAttr (some (TypeRef.ofName e.name)) own, outer)

end SchemaLang.Source
