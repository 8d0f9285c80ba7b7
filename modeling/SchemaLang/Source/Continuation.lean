import SchemaLang.Text.Space

/-!
# Continued lines

A line whose last character, white space apart, is a backslash goes on in the next line.  What
stands before the backslashes and the line that ends the run make one logical line, which has the
number of the last of them.
-/

namespace SchemaLang.Source

/-- What stands before the backslash of a line that is continued. -/
def continued? (line : List Char) : Option (List Char) :=
  match (Text.trimEnd line).reverse with
  | '\\' :: rest => some rest.reverse
  | _ => none

/-- Joins lines, the first of which has the number `n`, with what is pending before it. -/
def joinFrom (n : Nat) (pending : List Char) : List (List Char) → List (Nat × List Char)
  | [] => []
  | line :: rest =>
    match continued? line with
    | some part => joinFrom (n + 1) (pending ++ part) rest
    | none => (n, pending ++ line) :: joinFrom (n + 1) [] rest

/-- The logical lines of an input.  An empty line after the last one ends a continuation there. -/
def logicalLines (lines : List (List Char)) : List (Nat × List Char) :=
  joinFrom 1 [] (lines ++ [[]])

end SchemaLang.Source
