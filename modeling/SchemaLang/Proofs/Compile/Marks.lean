import SchemaLang.Proofs.Compile.Locality
import SchemaLang.Proofs.Compile.Session
import SchemaLang.Proofs.Source.Outline

/-!
# Where inputs say that things stand

A line that introduces a definition marks where it stands, and so does a line that adds a value or a
member to what has been introduced last above it.  The marks of inputs are found from their texts
alone; which of them counts is a question of which comes last.

* `marksFrom`, `Request.marks`: the marks of an input, in the order of its lines.
* `lastMark?`: where something has been marked last.
* `pointless_marksFrom`: the names that are marked have no point in them, so that the keys of a
  definition and of the items of another cannot be the same (`markKey_inj`).
* `Request.holds_of_logicalLines`: the logical lines of an input have the numbers of its lines, or
  the one after them.
-/

namespace SchemaLang

/-- Where a definition stands, or an item of one. -/
structure Mark where
  name : String
  item : Option String
  position : Position

/-! ## The marks of an input -/

namespace Source

/-- The value or member that a line lists, if it has a meaning. -/
def Line.item? : Line → Option String
  | .value item => some item
  | .member _ item expr => expr.type?.toOption.map fun _ => item
  | _ => none

/-- What a line marks, where `owner` is the name that has been introduced last above it. -/
def Scope.marked? (scope : Scope) (owner : Option String) (line : Line) :
    Option (String × Option String) :=
  match line.item? with
  | some item => owner.map fun name => (name, some item)
  | none => (scope.introduced? line).map fun name => (name, none)

/-- The name that has been introduced last when a line has been read. -/
def Scope.ownerAfter (scope : Scope) (owner : Option String) (line : Line) : Option String :=
  (scope.introduced? line).or owner

end Source

open Source (Scope Line)

def marksFrom (file : String) (scope : Scope) (owner : Option String) :
    List (Nat × List Char) → List Mark
  | [] => []
  | (n, text) :: lines =>
    (((scope.read? text).bind (scope.marked? owner)).map fun m => ⟨m.1, m.2, ⟨file, n⟩⟩).toList
      ++ marksFrom file (scope.next text)
        ((scope.read? text).elim owner (scope.ownerAfter owner)) lines

namespace Request

/-- The name and the lines of what is read. -/
def input? : Request → Option (String × List (List Char))
  | .text file content => some (file, Text.lines content.toList)
  | .lines file content => some (file, content)
  | .finish => none

def marks (request : Request) : List Mark :=
  request.input?.elim [] fun input =>
    marksFrom input.1 .outside none (Source.logicalLines input.2)

example : (Request.text "a" "action A\n  input\n    int x\n").marks.map
      (fun m => (m.name, m.item, m.position.line))
    = [("A", none, 1), ("A_input", none, 2), ("A_input", some "x", 3)] := by decide +kernel

/-- A position is at a line of the input or just below it. -/
def Holds (request : Request) (p : Position) : Prop :=
  ∃ lines, request.input? = some (p.file, lines) ∧ 1 ≤ p.line ∧ p.line ≤ lines.length + 1

end Request

/-! ## The mark that counts -/

/-- Where something has been marked last. -/
def lastMark? (marks : List Mark) (name : String) (item : Option String) : Option Position :=
  ((marks.filter fun m => m.name = name ∧ m.item = item).getLast?).map Mark.position

theorem lastMark?_append (marks others : List Mark) (name : String) (item : Option String) :
    lastMark? (marks ++ others) name item
      = (lastMark? others name item).or (lastMark? marks name item) := by
  rw [lastMark?, List.filter_append, List.getLast?_append, Option.map_or]
  rfl

theorem lastMark?_concat (marks : List Mark) (m : Mark) (name : String) (item : Option String) :
    lastMark? (marks ++ [m]) name item
      = if m.name = name ∧ m.item = item then some m.position else lastMark? marks name item := by
  rw [lastMark?_append]
  by_cases h : m.name = name ∧ m.item = item
  · simp [lastMark?, h]
  · rw [if_neg h]
    simp [lastMark?, h]

theorem exists_of_lastMark? {marks : List Mark} {name : String} {item : Option String}
    {p : Position} (h : lastMark? marks name item = some p) :
    ∃ m ∈ marks, m.name = name ∧ m.item = item ∧ m.position = p := by
  obtain ⟨m, hm, rfl⟩ := Option.map_eq_some_iff.1 h
  obtain ⟨hm, hname⟩ := List.mem_filter.1 (List.mem_of_getLast? hm)
  obtain ⟨hname, hitem⟩ := of_decide_eq_true hname
  exact ⟨m, hm, hname, hitem, rfl⟩

theorem exists_lastMark? {marks : List Mark} {m : Mark} (h : m ∈ marks) :
    ∃ p, lastMark? marks m.name m.item = some p := by
  have hm : m ∈ marks.filter fun other => other.name = m.name ∧ other.item = m.item :=
    List.mem_filter.2 ⟨h, decide_eq_true ⟨rfl, rfl⟩⟩
  have hlast := List.getLast?_isSome.2 (List.ne_nil_of_mem hm)
  obtain ⟨last, hlast⟩ := Option.isSome_iff_exists.1 hlast
  exact ⟨last.position, congrArg (Option.map Mark.position) hlast⟩

/-- What has not been marked has no last mark. -/
theorem lastMark?_eq_none {marks : List Mark} {name : String} {item : Option String}
    (h : ∀ m ∈ marks, m.name = name → m.item ≠ item) : lastMark? marks name item = none := by
  rw [Option.eq_none_iff_forall_ne_some]
  intro p hp
  obtain ⟨m, hm, hname, hitem, -⟩ := exists_of_lastMark? hp
  exact h m hm hname hitem

/-! ## Keys -/

/-- What positions are kept under. -/
def markKey (name : String) (item : Option String) : String :=
  item.elim name fun item => name ++ "." ++ item

theorem markKey_cases (name : String) (item : Option String) :
    markKey name item = name ∨ ∃ other, markKey name item = name ++ "." ++ other := by
  cases item with
  | none => exact .inl rfl
  | some item => exact .inr ⟨item, rfl⟩

/-- Names without a point can be told apart by their keys. -/
theorem markKey_inj {name name' : String} {item item' : Option String} (hn : Pointless name)
    (hn' : Pointless name') (h : markKey name item = markKey name' item') :
    name = name' ∧ item = item' := by
  have hcut := hn.takeWhile (markKey_cases name item)
  rw [h, hn'.takeWhile (markKey_cases name' item')] at hcut
  have hname : name = name' := (String.toList_inj.1 hcut).symm
  subst hname
  refine ⟨rfl, ?_⟩
  have hpoint : ∀ other, name ++ "." ++ other ≠ name := by
    intro other he
    have hl := congrArg String.length he
    have hlength : ".".length = 1 := by decide
    rw [String.length_append, String.length_append] at hl
    omega
  cases item with
  | none =>
    cases item' with
    | none => rfl
    | some other => exact absurd h.symm (hpoint other)
  | some item =>
    cases item' with
    | none => exact absurd h (hpoint item)
    | some other =>
      have hl := congrArg String.toList h
      simpa [markKey, String.toList_inj] using hl

/-! ## Names without a point -/

/-- The action that is open has a name without a point. -/
def Source.Scope.Pointless (scope : Scope) : Prop :=
  ∀ name ∈ scope.action?, SchemaLang.Pointless name

variable {scope : Scope} {owner : Option String}

theorem pointless_introduced? {line : Line} (hs : scope.Pointless) (hl : line.Pointless) :
    ∀ name ∈ scope.introduced? line, Pointless name := by
  intro name hname
  cases line with
  | action other => exact Option.some.inj hname ▸ hl
  | definition kind other bases => exact Option.some.inj hname ▸ hl
  | «section» s bases =>
    obtain ⟨a, ha, rfl⟩ := Option.map_eq_some_iff.1 hname
    have ha' : Pointless ({ name := a : Action }).name := hs a ha
    exact pointless_sectionTypeName ha' s
  | typedef other expr =>
    obtain ⟨_, -, rfl⟩ := Option.map_eq_some_iff.1 hname
    exact hl
  | _ => simp [Scope.introduced?] at hname

theorem pointless_marked? {line : Line} (hs : scope.Pointless)
    (ho : ∀ name ∈ owner, Pointless name) (hl : line.Pointless) :
    ∀ m ∈ scope.marked? owner line, Pointless m.1 := by
  intro m hm
  rw [Scope.marked?, Option.mem_def] at hm
  split at hm
  · obtain ⟨name, hname, rfl⟩ := Option.map_eq_some_iff.1 hm
    exact ho name hname
  · obtain ⟨name, hname, rfl⟩ := Option.map_eq_some_iff.1 hm
    exact pointless_introduced? hs hl name hname

theorem pointless_enter {line : Line} (hs : scope.Pointless) (hl : line.Pointless) :
    (scope.enter line).Pointless := by
  intro name hname
  cases line with
  | action other => exact Option.some.inj hname ▸ hl
  | definition kind other bases => simp [Scope.enter, Scope.action?] at hname
  | «section» s bases | urls =>
    cases ha : scope.action? with
    | none =>
      rw [Scope.enter, ha] at hname
      exact hs name hname
    | some a =>
      rw [Scope.enter, ha] at hname
      exact hs name (ha.trans hname)
  | typedef other expr =>
    rw [Scope.enter] at hname
    split at hname
    · simp [Scope.action?] at hname
    · exact hs name hname
  | _ => exact hs name hname

theorem pointless_ownerAfter {line : Line} (hs : scope.Pointless)
    (ho : ∀ name ∈ owner, Pointless name) (hl : line.Pointless) :
    ∀ name ∈ scope.ownerAfter owner line, Pointless name := by
  intro name hname
  rcases Option.or_eq_some_iff.1 hname with hi | ⟨-, hi⟩
  · exact pointless_introduced? hs hl name hi
  · exact ho name hi

theorem pointless_marksFrom {file : String} {lines : List (Nat × List Char)}
    (hs : scope.Pointless) (ho : ∀ name ∈ owner, Pointless name) :
    ∀ m ∈ marksFrom file scope owner lines, Pointless m.name := by
  induction lines generalizing scope owner with
  | nil => exact fun m hm => absurd hm List.not_mem_nil
  | cons line lines ih =>
    obtain ⟨n, text⟩ := line
    rw [marksFrom, Scope.next]
    cases hr : scope.read? text with
    | none => exact ih hs ho
    | some line =>
      have hl : line.Pointless := Line.pointless_parse? hr
      intro m hm
      rcases List.mem_append.1 hm with hm | hm
      · obtain ⟨found, hf, rfl⟩ := Option.map_eq_some_iff.1 (Option.mem_toList.1 hm)
        exact pointless_marked? hs ho hl found hf
      · exact ih (pointless_enter hs hl) (pointless_ownerAfter hs ho hl) m hm

theorem Request.pointless_marks (request : Request) : ∀ m ∈ request.marks, Pointless m.name := by
  rw [Request.marks]
  cases request.input? with
  | none => exact fun m hm => absurd hm List.not_mem_nil
  | some input =>
    have hnone : ∀ name ∈ (none : Option String), Pointless name := fun name h => by cases h
    exact pointless_marksFrom hnone hnone

/-! ## Lines of inputs -/

theorem line_of_marksFrom {file : String} {lines : List (Nat × List Char)} {m : Mark}
    (h : m ∈ marksFrom file scope owner lines) :
    m.position.file = file ∧ ∃ text, (m.position.line, text) ∈ lines := by
  induction lines generalizing scope owner with
  | nil => exact absurd h List.not_mem_nil
  | cons line lines ih =>
    obtain ⟨n, text⟩ := line
    rw [marksFrom, List.mem_append] at h
    rcases h with h | h
    · obtain ⟨found, -, rfl⟩ := Option.map_eq_some_iff.1 (Option.mem_toList.1 h)
      exact ⟨rfl, text, List.mem_cons_self⟩
    · obtain ⟨hfile, other, hm⟩ := ih h
      exact ⟨hfile, other, List.mem_cons_of_mem _ hm⟩

theorem Source.number_of_joinFrom {n m : Nat} {pending text : List Char} {lines : List (List Char)}
    (h : (m, text) ∈ joinFrom n pending lines) : n ≤ m ∧ m < n + lines.length := by
  induction lines generalizing n pending with
  | nil => exact absurd h List.not_mem_nil
  | cons line lines ih =>
    rw [List.length_cons]
    rw [joinFrom] at h
    split at h
    · have := ih h
      omega
    · rcases List.mem_cons.1 h with h | h
      · obtain ⟨rfl, -⟩ := Prod.mk.inj h
        omega
      · have := ih h
        omega

namespace Request

theorem holds_of_logicalLines {request : Request} {p : Position} {lines : List (List Char)}
    {text : List Char} (hr : request.input? = some (p.file, lines))
    (h : (p.line, text) ∈ Source.logicalLines lines) : request.Holds p := by
  obtain ⟨hpos, hlt⟩ := Source.number_of_joinFrom h
  rw [List.length_append, List.length_singleton] at hlt
  exact ⟨lines, hr, hpos, by omega⟩

theorem holds_of_marks {request : Request} {m : Mark} (h : m ∈ request.marks) :
    request.Holds m.position := by
  rw [marks] at h
  cases hr : request.input? with
  | none =>
    rw [hr] at h
    exact absurd h List.not_mem_nil
  | some input =>
    rw [hr] at h
    obtain ⟨hfile, text, hm⟩ := line_of_marksFrom h
    exact holds_of_logicalLines (by rw [hr, hfile]) hm

end Request

end SchemaLang
