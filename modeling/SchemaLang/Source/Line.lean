import SchemaLang.Source.TypeExpr

/-!
# The lines of a schema

A schema is read line by line.  What a line may be depends on where it stands: enum values,
members, sections and URLs are recognized only where such an item can be added.  The forms are
tried in a fixed order and the first that fits is taken.
-/

namespace SchemaLang.Source

inductive DefinitionKind
  | struct
  | union
  | enum
  deriving DecidableEq, Repr

inductive Line
  /-- A documentation line, a silent comment or an empty line. -/
  | comment (doc : Option (List Char))
  | group (name : Option (List Char))
  | action (name : String)
  | definition (kind : DefinitionKind) (name : String) (bases : Option (List String))
  | section (s : Section) (bases : Option (List String))
  | urls
  | value (name : String)
  | member (optional : Bool) (name : String) (type : TypeExpr)
  /-- The method `*` stands for all methods. -/
  | url (method : String) (path : Option String)
  | typedef (name : String) (type : TypeExpr)
  deriving DecidableEq

/-- Which items can be added where a line stands. -/
structure Place where
  sections : Bool := false
  values : Bool := false
  members : Bool := false
  urls : Bool := false
  deriving DecidableEq

namespace Line

def comment? (cs : List Char) : Option Line :=
  match skipBlanks cs with
  | [] => some (.comment none)
  | '#' :: '-' :: _ => some (.comment none)
  | '#' :: doc => some (.comment (some doc))
  | _ => none

def groupName? (cs : List Char) : Option (List Char) := do
  let rest ← blanks? cs
  let rest ← word? ['"'] rest
  let name ← upToLastQuote? rest
  if name.isEmpty then none else some name

def group? (cs : List Char) : Option Line := do
  let rest ← word? "group".toList cs
  match groupName? rest with
  | some name => some (.group (some name))
  | none => if atEnd rest then some (.group none) else none

/-- What follows the name does not matter. -/
def action? (cs : List Char) : Option Line := do
  let rest ← word? "action".toList cs
  let rest ← blanks? rest
  let (name, _) ← name? rest
  pure (.action name)

def kind? (cs : List Char) : Option (DefinitionKind × List Char) :=
  (word? "struct".toList cs).map (fun rest => (.struct, rest))
    <|> (word? "union".toList cs).map (fun rest => (.union, rest))
    <|> (word? "enum".toList cs).map (fun rest => (.enum, rest))

/-- Base names in parentheses. -/
def baseList? (cs : List Char) : Option (List String × List Char) := do
  let rest ← word? ['('] cs
  let (names, rest) ← separated name? (skipBlanks rest)
  let rest ← word? [')'] (skipBlanks rest)
  pure (names, rest)

/-- Base names, where they stand, up to the end of the line. -/
def bases? (cs : List Char) : Option (Option (List String)) :=
  match baseList? (skipBlanks cs) with
  | some (names, rest) => if atEnd rest then some (some names) else none
  | none => if atEnd cs then some none else none

def definition? (cs : List Char) : Option Line := do
  let (kind, rest) ← kind? cs
  let rest ← blanks? rest
  let (name, rest) ← name? rest
  let bases ← bases? rest
  pure (.definition kind name bases)

def sectionName? (cs : List Char) : Option (Section × List Char) :=
  Section.all.findSome? fun s => (word? s.name.toList cs).map fun rest => (s, rest)

def section? (cs : List Char) : Option Line := do
  let rest ← blanks? cs
  let (s, rest) ← sectionName? rest
  let bases ← bases? rest
  pure (.section s bases)

def urls? (cs : List Char) : Option Line := do
  let rest ← blanks? cs
  let rest ← word? "urls".toList rest
  if atEnd rest then some .urls else none

/-- A value is a name, or any text in quotes. -/
def value? (cs : List Char) : Option Line := do
  let rest ← blanks? cs
  match name? rest with
  | some (name, rest) => if atEnd rest then some (.value name) else none
  | none =>
    let rest ← word? ['"'] rest
    let text ← upToLastQuote? rest
    pure (.value (String.ofList text))

/-- A type and a name after it. -/
def typed? (cs : List Char) : Option ((TypeExpr × String) × List Char) := do
  let (type, rest) ← typeExpr? cs
  let rest ← blanks? rest
  let (name, rest) ← name? rest
  pure ((type, name), rest)

def optional? (cs : List Char) : Option ((TypeExpr × String) × List Char) := do
  let rest ← word? "optional".toList cs
  let rest ← blanks? rest
  typed? rest

/-- A type may itself be named `optional`; that is tried only where no type and name follow. -/
def member? (cs : List Char) : Option Line := do
  let rest ← blanks? cs
  match optional? rest with
  | some ((type, name), rest) => if atEnd rest then some (.member true name type) else none
  | none =>
    let ((type, name), rest) ← typed? rest
    if atEnd rest then some (.member false name type) else none

def method? : List Char → Option (String × List Char)
  | '*' :: cs => some ("*", cs)
  | cs =>
    let letters := cs.takeWhile Char.isAlpha
    if letters.isEmpty then none else some (String.ofList letters, cs.dropWhile Char.isAlpha)

/-- A path goes up to the next blank. -/
def path? (cs : List Char) : Option String := do
  let rest ← blanks? cs
  match rest with
  | '/' :: rest => some (String.ofList ('/' :: rest.takeWhile fun c => !isBlank c))
  | _ => none

/-- What follows the method and the path does not matter. -/
def url? (cs : List Char) : Option Line := do
  let rest ← blanks? cs
  let (method, rest) ← method? rest
  pure (.url method (path? rest))

def typedef? (cs : List Char) : Option Line := do
  let rest ← word? "typedef".toList cs
  let rest ← blanks? rest
  let ((type, name), rest) ← typed? rest
  if atEnd rest then some (.typedef name type) else none

def onlyIf {α : Type} (b : Bool) (a : Option α) : Option α := if b then a else none

/-- The line that a text is at a place, if it is one. -/
def parse? (place : Place) (cs : List Char) : Option Line :=
  comment? cs
    <|> group? cs
    <|> action? cs
    <|> definition? cs
    <|> onlyIf place.sections (section? cs)
    <|> onlyIf place.sections (urls? cs)
    <|> onlyIf place.values (value? cs)
    <|> onlyIf place.members (member? cs)
    <|> onlyIf place.urls (url? cs)
    <|> typedef? cs

end Line

end SchemaLang.Source
