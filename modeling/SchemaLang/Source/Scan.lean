import SchemaLang.Text.Letter

/-!
# Scanning a line

Each scanner takes the longest piece of its form from the front of a text and answers it with the
rest.  Blanks are spaces and tabs only.
-/

namespace SchemaLang.Source

def isBlank (c : Char) : Bool := c == ' ' || c == '\t'

def skipBlanks (cs : List Char) : List Char := cs.dropWhile isBlank

/-- At least one blank. -/
def blanks? : List Char → Option (List Char)
  | [] => none
  | c :: cs => if isBlank c then some (skipBlanks cs) else none

/-- Whether nothing but blanks is left. -/
def atEnd (cs : List Char) : Bool := (skipBlanks cs).isEmpty

/-- What follows a word that stands in front. -/
def word? : List Char → List Char → Option (List Char)
  | [], cs => some cs
  | _ :: _, [] => none
  | w :: word, c :: cs => if w = c then word? word cs else none

def isNameStart (c : Char) : Bool := c.isAlpha

def isNamePart (c : Char) : Bool := Text.isLetter c || Text.isNumber c || c == '_'

/-- A name starts with an ASCII letter. -/
def name? : List Char → Option (String × List Char)
  | [] => none
  | c :: cs =>
    if isNameStart c then
      some (String.ofList (c :: cs.takeWhile isNamePart), cs.dropWhile isNamePart)
    else none

/-- Digits, at least one. -/
def digits? (cs : List Char) : Option (List Char × List Char) :=
  let digits := cs.takeWhile Char.isDigit
  if digits.isEmpty then none else some (digits, cs.dropWhile Char.isDigit)

/-- What stands before the quote that ends a line. -/
def upToLastQuote? : List Char → Option (List Char)
  | [] => none
  | c :: cs => if c = '"' ∧ atEnd cs then some [] else (upToLastQuote? cs).map (c :: ·)

/-- Further items, each after a comma; at most `count` of them. -/
def further {α : Type} (item : List Char → Option (α × List Char)) :
    Nat → List Char → List α × List Char
  | 0, cs => ([], cs)
  | count + 1, cs =>
    match skipBlanks cs with
    | ',' :: rest =>
      match item (skipBlanks rest) with
      | some (a, rest) =>
        let (as, rest) := further item count rest
        (a :: as, rest)
      | none => ([], cs)
    | _ => ([], cs)

/-- Items separated by commas, at least one. -/
def separated {α : Type} (item : List Char → Option (α × List Char)) (cs : List Char) :
    Option (List α × List Char) :=
  (item cs).map fun (a, rest) =>
    let (as, rest) := further item rest.length rest
    (a :: as, rest)

end SchemaLang.Source
