import SchemaLang.Source.Line

/-!
# The outline of an input

What a line may be depends on the lines above it in the same input and on nothing else.  A header
opens a block, a section or the heading of URLs opens a part of the action that is open, and the
other lines stand in what has been opened.  `Scope` is where a line stands, without the definitions
that have been made; `readings` are the lines that are understood, each with its scope.

* `Line.allowed_of_parse?`: members, values, sections and URLs are read only where they can stand.
* `Scope.enter`: where the next line stands.
* `readings_append`: the outline of a text in two parts.
* `Scope.introduced?`, `introducedNames`: the names that lines put definitions under.
* `Scope.url?`, `listedUrls`: the URLs that lines list, each with its action.
-/

namespace SchemaLang.Source

/-! ## Lines that need a place -/

namespace Line

/-- What has to be allowed where a line stands. -/
def Allowed (place : Place) : Line → Prop
  | .section _ _ => place.sections = true
  | .urls => place.sections = true
  | .value _ => place.values = true
  | .member _ _ _ => place.members = true
  | .url _ _ => place.urls = true
  | _ => True

theorem allowed_of_parse? {place : Place} {cs : List Char} {line : Line}
    (h : parse? place cs = some line) :
    line.Allowed place := by
  simp only [parse?, onlyIf, Option.orElse_eq_orElse, Option.orElse_eq_or, Option.or_eq_some_iff,
    Option.ite_none_right_eq_some] at h
  obtain h | ⟨-, h | ⟨-, h | ⟨-, h | ⟨-, ⟨hp, h⟩ | ⟨-, ⟨hp, h⟩ | ⟨-, ⟨hp, h⟩ | ⟨-, ⟨hp, h⟩
    | ⟨-, ⟨hp, h⟩ | ⟨-, h⟩⟩⟩⟩⟩⟩⟩⟩⟩ := h
  · rw [comment?] at h
    split at h <;> cases h <;> trivial
  · simp only [group?, Option.bind_eq_bind, Option.bind_eq_some_iff] at h
    obtain ⟨rest, -, h⟩ := h
    split at h
    · cases h
      trivial
    · obtain ⟨-, ⟨⟩⟩ := Option.ite_none_right_eq_some.1 h
      trivial
  · simp only [action?, Option.bind_eq_bind, Option.bind_eq_some_iff] at h
    obtain ⟨_, -, _, -, _, -, ⟨⟩⟩ := h
    trivial
  · simp only [definition?, Option.bind_eq_bind, Option.bind_eq_some_iff] at h
    obtain ⟨_, -, _, -, _, -, _, -, ⟨⟩⟩ := h
    trivial
  · simp only [section?, Option.bind_eq_bind, Option.bind_eq_some_iff] at h
    obtain ⟨_, -, _, -, _, -, ⟨⟩⟩ := h
    exact hp
  · simp only [urls?, Option.bind_eq_bind, Option.bind_eq_some_iff] at h
    obtain ⟨_, -, _, -, h⟩ := h
    obtain ⟨-, ⟨⟩⟩ := Option.ite_none_right_eq_some.1 h
    exact hp
  · simp only [value?, Option.bind_eq_bind, Option.bind_eq_some_iff] at h
    obtain ⟨_, -, h⟩ := h
    split at h
    · obtain ⟨-, ⟨⟩⟩ := Option.ite_none_right_eq_some.1 h
      exact hp
    · simp only [Option.bind_eq_some_iff] at h
      obtain ⟨_, -, _, -, ⟨⟩⟩ := h
      exact hp
  · simp only [member?, Option.bind_eq_bind, Option.bind_eq_some_iff] at h
    obtain ⟨_, -, h⟩ := h
    split at h
    · obtain ⟨-, ⟨⟩⟩ := Option.ite_none_right_eq_some.1 h
      exact hp
    · simp only [Option.bind_eq_some_iff] at h
      obtain ⟨_, -, h⟩ := h
      obtain ⟨-, ⟨⟩⟩ := Option.ite_none_right_eq_some.1 h
      exact hp
  · simp only [url?, Option.bind_eq_bind, Option.bind_eq_some_iff] at h
    obtain ⟨_, -, _, -, ⟨⟩⟩ := h
    exact hp
  · simp only [typedef?, Option.bind_eq_bind, Option.bind_eq_some_iff] at h
    obtain ⟨_, -, _, -, _, -, h⟩ := h
    obtain ⟨-, ⟨⟩⟩ := Option.ite_none_right_eq_some.1 h
    trivial

end Line

/-! ## Scopes -/

/-- Where a line stands. -/
inductive Scope
  | outside
  /-- Under the header of an enum, or of a struct or a union. -/
  | type (enum : Bool)
  | action (name : String)
  | section (action : String) (s : Section)
  | urls (action : String)
  deriving DecidableEq

namespace Scope

/-- The action that is open. -/
def action? : Scope → Option String
  | .action a => some a
  | .section a _ => some a
  | .urls a => some a
  | _ => none

/-- Whether values are listed, as against members. -/
def enum? : Scope → Option Bool
  | .type enum => some enum
  | .section _ s => some (s == .errors)
  | _ => none

def isUrls : Scope → Bool
  | .urls _ => true
  | _ => false

def place (scope : Scope) : Place :=
  { sections := scope.action?.isSome
    values := scope.enum? == some true
    members := scope.enum? == some false
    urls := scope.isUrls }

/-- What a text is read as. -/
def read? (scope : Scope) (text : List Char) : Option Line := Line.parse? scope.place text

/-- Where the line after a line stands. -/
def enter (scope : Scope) : Line → Scope
  | .action name => .action name
  | .definition kind _ _ => .type (kind == .enum)
  | .section s _ => scope.action?.elim scope fun a => .section a s
  | .urls => scope.action?.elim scope .urls
  | .typedef _ expr => if expr.type?.toOption.isSome then .outside else scope
  | _ => scope

/-- Where the line after a text stands, which may have no meaning. -/
def next (scope : Scope) (text : List Char) : Scope := (scope.read? text).elim scope scope.enter

def after (scope : Scope) (texts : List (List Char)) : Scope := texts.foldl next scope

/-- The name that a line puts a definition under. -/
def introduced? (scope : Scope) : Line → Option String
  | .action name => some name
  | .definition _ name _ => some name
  | .section s _ => scope.action?.map fun a => a ++ "_" ++ s.name
  | .typedef name expr => expr.type?.toOption.map fun _ => name
  | _ => none

/-- The URL that a line lists, and the action that it belongs to. -/
def url? : Scope → Line → Option (String × Url)
  | .urls a, .url method path =>
    some (a, { method := if method = "*" then none else some method, path })
  | _, _ => none

end Scope

/-! ## Outlines -/

/-- The lines of a text that are understood, where they stand. -/
def readings (scope : Scope) : List (List Char) → List (Scope × Line)
  | [] => []
  | text :: texts =>
    ((scope.read? text).map fun line => (scope, line)).toList ++ readings (scope.next text) texts

theorem readings_append (scope : Scope) (texts others : List (List Char)) :
    readings scope (texts ++ others)
      = readings scope texts ++ readings (scope.after texts) others := by
  induction texts generalizing scope with
  | nil => rfl
  | cons text texts ih =>
    rw [List.cons_append, readings, readings, ih, List.append_assoc]
    rfl

theorem readings_singleton (scope : Scope) (text : List Char) :
    readings scope [text] = ((scope.read? text).map fun line => (scope, line)).toList :=
  List.append_nil _

/-- The names that the lines of an input put definitions under. -/
def introducedNames (texts : List (List Char)) : List String :=
  (readings .outside texts).filterMap fun (scope, line) => scope.introduced? line

/-- The URLs that the lines of an input list. -/
def listedUrls (texts : List (List Char)) : List (String × Url) :=
  (readings .outside texts).filterMap fun (scope, line) => scope.url? line

end SchemaLang.Source
