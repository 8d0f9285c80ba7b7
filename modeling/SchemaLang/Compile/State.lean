import SchemaLang.Compile.Diagnostic
import SchemaLang.Source.Line

/-!
# What a line does

`Compilation` is what is gathered over all inputs: the type model, the diagnostics and the
positions at which things were defined.  `Cursor` is what is remembered from line to line of one
input: the block that lines stand in, the documentation lines that wait for the next item, and the
documentation group.

`step` reads one line and makes it take effect.
-/

namespace SchemaLang

structure Compilation where
  types : Types := ∅
  /-- The diagnostics, latest first. -/
  log : List Diagnostic := []
  /-- Where types, and members and values under `Type.item`, were defined last. -/
  positions : NameMap Position := ∅

/-- The block that a line stands in, by the names of what is being defined. -/
inductive Block
  | outside
  | type (name : String)
  | action (action : String)
  | section (action type : String)
  /-- The URLs that have been listed so far under this heading. -/
  | urls (action : String) (listed : List Url)
  deriving DecidableEq

namespace Block

/-- The action that sections and URLs are added to. -/
def action? : Block → Option String
  | .action a => some a
  | .section a _ => some a
  | .urls a _ => some a
  | _ => none

/-- The struct or enum that members or values are added to. -/
def type? : Block → Option String
  | .type name => some name
  | .section _ name => some name
  | _ => none

end Block

structure Cursor where
  block : Block := .outside
  doc : List String := []
  group : Option String := none

namespace Compilation

def report (c : Compilation) (pos : Position) (fault : Fault) : Compilation :=
  { c with log := ⟨pos, fault.message⟩ :: c.log }

/-- Reports a fault if there is one. -/
def reportIf (c : Compilation) (b : Bool) (pos : Position) (fault : Fault) : Compilation :=
  if b then c.report pos fault else c

/-- Defines a name and remembers where; a definition that was there is replaced. -/
def define (c : Compilation) (pos : Position) (name : String) (d : Definition) : Compilation :=
  { c with types := c.types.insert name d, positions := c.positions.insert name pos }

/-- Replaces the definition of a name. -/
def update (c : Compilation) (name : String) (d : Definition) : Compilation :=
  { c with types := c.types.insert name d }

/-- Remembers where an item of a definition stands. -/
def locate (c : Compilation) (pos : Position) (owner item : String) : Compilation :=
  { c with positions := c.positions.insert (owner ++ "." ++ item) pos }

/-- Builtin names and names in use are not free. -/
def isTaken (c : Compilation) (name : String) : Bool :=
  (Builtin.ofName? name).isSome || c.types.contains name

def action? (c : Compilation) (name : String) : Option Action :=
  match c.types.get? name with
  | some (.action a) => some a
  | _ => none

end Compilation

namespace Cursor

/-- The documentation for the item of this line. -/
def doc? (k : Cursor) : Option (List String) := if k.doc.isEmpty then none else some k.doc

/-- What is remembered once an item has taken the documentation. -/
def entering (k : Cursor) (block : Block) : Cursor := { k with block, doc := [] }

def place (c : Compilation) (k : Cursor) : Source.Place :=
  let definition := k.block.type?.bind c.types.get?
  { sections := k.block.action?.isSome
    values := (definition.bind Definition.enum?).isSome
    members := (definition.bind Definition.struct?).isSome
    urls := match k.block with
      | .urls _ _ => true
      | _ => false }

end Cursor

/-! ## The effect of each kind of line -/

namespace Compile

open Source (DefinitionKind TypeExpr Line)

/-- One space after the mark is not part of the text. -/
def docText : List Char → String
  | ' ' :: cs => String.ofList cs
  | cs => String.ofList cs

def comment (doc : Option (List Char)) (k : Cursor) : Cursor :=
  match doc with
  | none => k
  | some text => { k with doc := k.doc ++ [docText text] }

def group (name : Option (List Char)) (k : Cursor) : Cursor :=
  { k with group := name.map fun cs => String.ofList (Text.trim cs) }

def action (pos : Position) (name : String) (c : Compilation) (k : Cursor) :
    Compilation × Cursor :=
  ((c.reportIf (c.types.contains name) pos (.actionRedefined name)).define pos name
      (.action { name, doc := k.doc?, docGroup := k.group }),
    k.entering (.action name))

def newDefinition (kind : DefinitionKind) (name : String) (bases : Option (List String))
    (k : Cursor) : Definition :=
  match kind with
  | .struct => .struct { name, doc := k.doc?, docGroup := k.group, bases }
  | .union => .struct { name, doc := k.doc?, docGroup := k.group, union := true, bases }
  | .enum => .enum { name, doc := k.doc?, docGroup := k.group, bases }

def definition (pos : Position) (kind : DefinitionKind) (name : String)
    (bases : Option (List String)) (c : Compilation) (k : Cursor) : Compilation × Cursor :=
  ((c.reportIf (c.isTaken name) pos (.typeRedefined name)).define pos name
      (newDefinition kind name bases k),
    k.entering (.type name))

/-- The type of an action's section is named for both. -/
def sectionTypeName (a : Action) (s : Section) : String := a.name ++ "_" ++ s.name

def sectionDefinition (s : Section) (name : String) (bases : Option (List String)) : Definition :=
  match s with
  | .errors => .enum { name, bases }
  | _ => .struct { name, bases }

/-- A section waits for no documentation of its own. -/
def sectionOf (pos : Position) (s : Section) (bases : Option (List String)) (c : Compilation)
    (k : Cursor) : Compilation × Cursor :=
  match k.block.action?.bind fun name => (c.action? name).map fun a => (name, a) with
  | none => (c, k)
  | some (key, a) =>
    let name := sectionTypeName a s
    (((c.update key (.action (a.setType s name))).reportIf (a.type? s).isSome pos
        (.sectionRedefined s)).define pos name (sectionDefinition s name bases),
      { k with block := .section key name })

def urls (pos : Position) (c : Compilation) (k : Cursor) : Compilation × Cursor :=
  match k.block.action? with
  | none => (c, k)
  | some key =>
    (c.reportIf ((c.action? key).bind Action.urls).isSome pos .urlsRedefined,
      { k with block := .urls key [] })

def value (pos : Position) (name : String) (c : Compilation) (k : Cursor) :
    Compilation × Cursor :=
  (match k.block.type?.bind fun key =>
      ((c.types.get? key).bind Definition.enum?).map fun e => (key, e) with
    | none => c
    | some (key, e) =>
      let values := e.values.getD [] ++ [{ name, doc := k.doc? }]
      (c.update key (.enum { e with values := some values })).locate pos e.name name,
    k.entering k.block)

def member (pos : Position) (m : Member) (c : Compilation) (k : Cursor) : Compilation × Cursor :=
  (match k.block.type?.bind fun key =>
      ((c.types.get? key).bind Definition.struct?).map fun s => (key, s) with
    | none => c
    | some (key, s) =>
      let members := s.members.getD [] ++ [m]
      (c.update key (.struct { s with members := some members })).locate pos s.name m.name,
    k.entering k.block)

/-- A URL that has been listed under the same heading is added nevertheless. -/
def url (pos : Position) (method : String) (path : Option String) (c : Compilation) (k : Cursor) :
    Compilation × Cursor :=
  match k.block with
  | .urls key listed =>
    let new : Url := { method := if method = "*" then none else some method, path }
    let c := c.reportIf (listed.contains new) pos (.duplicateUrl method path)
    (match c.action? key with
      | none => c
      | some a => c.update key (.action { a with urls := some (a.urls.getD [] ++ [new]) }),
      { k with block := .urls key (listed ++ [new]) })
  | _ => (c, k)

def typedef (pos : Position) (t : Typedef) (c : Compilation) (k : Cursor) :
    Compilation × Cursor :=
  ((c.reportIf (c.isTaken t.name) pos (.typeRedefined t.name)).define pos t.name (.typedef t),
    k.entering .outside)

/-- What a line does.  A line with a type in it that has no meaning is only reported. -/
def apply (pos : Position) (line : Line) (c : Compilation) (k : Cursor) : Compilation × Cursor :=
  match line with
  | .comment doc => (c, comment doc k)
  | .group name => (c, group name k)
  | .action name => action pos name c k
  | .definition kind name bases => definition pos kind name bases c k
  | .section s bases => sectionOf pos s bases c k
  | .urls => urls pos c k
  | .value name => value pos name c k
  | .member optional name expr =>
    match expr.type? with
    | .error digits => (c.report pos (.attributeValue digits), k)
    | .ok (type, attr) => member pos { name, doc := k.doc?, type, attr, optional } c k
  | .url method path => url pos method path c k
  | .typedef name expr =>
    match expr.type? with
    | .error digits => (c.report pos (.attributeValue digits), k)
    | .ok (type, attr) =>
      typedef pos { name, doc := k.doc?, docGroup := k.group, type, attr } c k

/-- Reads a logical line where the cursor stands. -/
def step (pos : Position) (text : List Char) (c : Compilation) (k : Cursor) :
    Compilation × Cursor :=
  match Line.parse? (k.place c) text with
  | none => (c.report pos .unreadable, k)
  | some line => apply pos line c k

end Compile

end SchemaLang
