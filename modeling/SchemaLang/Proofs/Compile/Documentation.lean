import Mathlib.Data.List.DropRight
import SchemaLang.Proofs.Compile.Outline

/-!
# Documentation and groups

Documentation lines wait for the next item: a header, a typedef, a member or a value.  It takes all
that wait, and no other line takes any or clears them: not a section, a URL or a group, and not a
line that is only reported.  The group of a definition is the last one that has been named.  Each
input starts with nothing that waits and no group.

* `Source.waitingDoc`, `Source.lastGroup`: what waits after lines, and their group.
* `Source.flatten_handedOut`: every documentation line is taken once, or waits in the end.
* `Compilation.doc_readLogical`, `Compilation.group_readLogical`: what the cursor remembers.
* `Compilation.documentation_of_items`: what the items of an input are made with.
-/

namespace SchemaLang

namespace Source

/-! ## Lines -/

namespace Line

/-- A line that makes something of its own in the model, which is what documentation is about. -/
def isItem : Line → Bool
  | .action _ => true
  | .definition _ _ _ => true
  | .value _ => true
  | .member _ _ expr => expr.type?.toOption.isSome
  | .typedef _ expr => expr.type?.toOption.isSome
  | _ => false

/-- The text of a documentation line, without the space after its mark. -/
def docText? : Line → Option String
  | .comment doc => doc.map Compile.docText
  | _ => none

/-- The group that a line names, or that it names none from now on. -/
def naming? : Line → Option (Option String)
  | .group name => some (name.map fun cs => String.ofList (Text.trim cs))
  | _ => none

end Line

/-- The documentation after the last item. -/
def waitingDoc (lines : List Line) : List String :=
  (lines.rtakeWhile fun line => !line.isItem).filterMap Line.docText?

/-- The group that has been named last. -/
def lastGroup (lines : List Line) : Option String := (lines.filterMap Line.naming?).getLast?.join

theorem waitingDoc_concat (lines : List Line) (line : Line) :
    waitingDoc (lines ++ [line])
      = if line.isItem then [] else waitingDoc lines ++ line.docText?.toList := by
  rw [waitingDoc, List.rtakeWhile_concat]
  by_cases h : line.isItem = true
  · simp [h]
  · simp only [h, Bool.not_false, if_true, List.filterMap_append, Bool.false_eq_true, if_false]
    cases hd : line.docText? <;> simp [hd, waitingDoc]

theorem lastGroup_concat (lines : List Line) (line : Line) :
    lastGroup (lines ++ [line]) = line.naming?.getD (lastGroup lines) := by
  rw [lastGroup, List.filterMap_append]
  cases h : line.naming? with
  | none => simp [h, lastGroup]
  | some group => simp [h]

/-- The documentation that each item takes, where these lines come after others. -/
def handedOut (above : List Line) : List Line → List (List String)
  | [] => []
  | line :: lines =>
    (if line.isItem then [waitingDoc above] else []) ++ handedOut (above ++ [line]) lines

theorem Line.docText?_of_isItem {line : Line} (h : line.isItem = true) : line.docText? = none := by
  cases line with
  | comment doc => exact absurd h Bool.false_ne_true
  | _ => rfl

/-- What has been waiting and what comes is taken in order and once, or waits in the end. -/
theorem flatten_handedOut (above lines : List Line) :
    (handedOut above lines).flatten ++ waitingDoc (above ++ lines)
      = waitingDoc above ++ lines.filterMap Line.docText? := by
  induction lines generalizing above with
  | nil => simp [handedOut]
  | cons line lines ih =>
    have hrest := ih (above ++ [line])
    rw [List.append_assoc, List.singleton_append, waitingDoc_concat] at hrest
    rw [handedOut, List.flatten_append, List.append_assoc, hrest]
    by_cases h : line.isItem = true
    · simp [h, Line.docText?_of_isItem h]
    · cases hd : line.docText? <;> simp [h, hd]

/-- The lines of an input that are understood. -/
def linesOf (texts : List (List Char)) : List Line := (readings .outside texts).map Prod.snd

theorem linesOf_concat (texts : List (List Char)) (text : List Char) :
    linesOf (texts ++ [text])
      = linesOf texts ++ ((Scope.after .outside texts).read? text).toList := by
  rw [linesOf, readings_append, List.map_append, readings_singleton, linesOf]
  cases (Scope.after .outside texts).read? text <;> rfl

end Source

/-! ## What is made -/

namespace Definition

def doc : Definition → Option (List String)
  | .struct s => s.doc
  | .enum e => e.doc
  | .typedef t => t.doc
  | .action a => a.doc

def docGroup : Definition → Option String
  | .struct s => s.docGroup
  | .enum e => e.docGroup
  | .typedef t => t.docGroup
  | .action a => a.docGroup

end Definition

namespace Compile

open Source (Line Scope waitingDoc lastGroup)

/-- A line has made its item with this documentation and this group: a definition under its name, or
a member or a value at the end of the open definition. -/
def Makes (before after : Types) (open? : Option String) (doc : Option (List String))
    (group : Option String) : Line → Prop
  | .action name => ∃ d, after.get? name = some d ∧ d.doc = doc ∧ d.docGroup = group
  | .definition _ name _ => ∃ d, after.get? name = some d ∧ d.doc = doc ∧ d.docGroup = group
  | .typedef name _ => ∃ d, after.get? name = some d ∧ d.doc = doc ∧ d.docGroup = group
  | .member _ name _ => ∃ key s m, open? = some key ∧ before.get? key = some (.struct s)
    ∧ after.get? key = some (.struct { s with members := some (s.members.getD [] ++ [m]) })
    ∧ m.name = name ∧ m.doc = doc
  | .value name => ∃ key e v, open? = some key ∧ before.get? key = some (.enum e)
    ∧ after.get? key = some (.enum { e with values := some (e.values.getD [] ++ [v]) })
    ∧ v.name = name ∧ v.doc = doc
  | _ => False

variable {pos : Position} {c : Compilation} {k : Cursor}

theorem get?_define {b : Bool} {fault : Fault} {name : String} {d : Definition} :
    ((c.reportIf b pos fault).define pos name d).types.get? name = some d := by
  rw [Compilation.types_define, NameMap.get?_insert, if_pos rfl]

/-- What is open in a block of values or members. -/
theorem exists_of_open {α : Type} {kind? : Definition → Option α}
    (h : ((k.block.type?.bind c.types.get?).bind kind?).isSome = true) :
    ∃ key a, k.block.type? = some key
      ∧ (k.block.type?.bind fun key => ((c.types.get? key).bind kind?).map fun a => (key, a))
        = some (key, a) := by
  obtain ⟨a, ha⟩ := Option.isSome_iff_exists.1 h
  obtain ⟨d, hd, ha⟩ := Option.bind_eq_some_iff.1 ha
  obtain ⟨key, hb, hd⟩ := Option.bind_eq_some_iff.1 hd
  refine ⟨key, a, hb, ?_⟩
  rw [hb, Option.bind_some, hd, Option.bind_some, ha, Option.map_some]

theorem makes_member (pos : Position) {m : Member} (h : (k.place c).members = true) :
    ∃ key s, k.block.type? = some key ∧ c.types.get? key = some (.struct s)
      ∧ (member pos m c k).1.types.get? key
        = some (.struct { s with members := some (s.members.getD [] ++ [m]) }) := by
  obtain ⟨key, s, hb, hs⟩ := exists_of_open h
  refine ⟨key, s, hb, get?_of_open hs fun _ _ => Definition.eq_of_struct?, ?_⟩
  rw [member, hs]
  simp only [Compilation.types_locate, Compilation.types_update, NameMap.get?_insert, if_true]

theorem makes_value (pos : Position) {name : String} (h : (k.place c).values = true) :
    ∃ key e, k.block.type? = some key ∧ c.types.get? key = some (.enum e)
      ∧ (value pos name c k).1.types.get? key
        = some (.enum { e with
          values := some (e.values.getD [] ++ [{ name, doc := k.doc? }]) }) := by
  obtain ⟨key, e, hb, he⟩ := exists_of_open h
  refine ⟨key, e, hb, get?_of_open he fun _ _ => Definition.eq_of_enum?, ?_⟩
  rw [value, he]
  simp only [Compilation.types_locate, Compilation.types_update, NameMap.get?_insert, if_true]

/-! ## One line -/

/-- Only items take documentation. -/
theorem doc_apply (line : Line) :
    (apply pos line c k).2.doc = if line.isItem then [] else k.doc ++ line.docText?.toList := by
  cases line with
  | comment doc =>
    cases doc with
    | none => exact (List.append_nil k.doc).symm
    | some text => rfl
  | group name => exact (List.append_nil k.doc).symm
  | action name => rfl
  | definition kind name bases => rfl
  | «section» s bases =>
    rw [apply, sectionOf]
    split <;> exact (List.append_nil k.doc).symm
  | urls =>
    rw [apply, urls]
    split <;> exact (List.append_nil k.doc).symm
  | value name => rfl
  | member optional name expr =>
    rw [apply, Line.isItem]
    split
    · next he =>
      rw [he]
      exact (List.append_nil k.doc).symm
    · next he =>
      rw [he]
      rfl
  | url method path =>
    rw [apply, url]
    split <;> exact (List.append_nil k.doc).symm
  | typedef name expr =>
    rw [apply, Line.isItem]
    split
    · next he =>
      rw [he]
      exact (List.append_nil k.doc).symm
    · next he =>
      rw [he]
      rfl

theorem group_apply (line : Line) : (apply pos line c k).2.group = line.naming?.getD k.group := by
  cases line with
  | comment doc => cases doc <;> rfl
  | group name => rfl
  | action name => rfl
  | definition kind name bases => rfl
  | «section» s bases =>
    rw [apply, sectionOf]
    split <;> rfl
  | urls =>
    rw [apply, urls]
    split <;> rfl
  | value name => rfl
  | member optional name expr =>
    rw [apply]
    split <;> rfl
  | url method path =>
    rw [apply, url]
    split <;> rfl
  | typedef name expr =>
    rw [apply]
    split <;> rfl

theorem exists_ok_of_isItem {expr : Source.TypeExpr} (h : expr.type?.toOption.isSome = true) :
    ∃ meaning, expr.type? = .ok meaning := by
  cases he : expr.type? with
  | error digits =>
    rw [he] at h
    exact absurd h Bool.false_ne_true
  | ok meaning => exact ⟨meaning, rfl⟩

/-- An item is made with the documentation and the group of the cursor. -/
theorem makes_step (pos : Position) {text : List Char} {line : Line}
    (hread : Line.parse? (k.place c) text = some line) (hitem : line.isItem = true) :
    Makes c.types (step pos text c k).1.types k.block.type? k.doc? k.group line := by
  rw [step, hread]
  cases line with
  | action name => exact ⟨_, get?_define, rfl, rfl⟩
  | definition kind name bases =>
    refine ⟨_, get?_define, ?_, ?_⟩ <;> cases kind <;> rfl
  | value name =>
    obtain ⟨key, e, hb, he, hafter⟩ := makes_value pos (Line.allowed_of_parse? hread)
    exact ⟨key, e, _, hb, he, hafter, rfl, rfl⟩
  | member optional name expr =>
    obtain ⟨⟨type, attr⟩, htype⟩ := exists_ok_of_isItem hitem
    let m : Member := { name, doc := k.doc?, type, attr, optional }
    obtain ⟨key, s, hb, hs, hafter⟩ := makes_member pos (m := m) (Line.allowed_of_parse? hread)
    refine ⟨key, s, m, hb, hs, ?_, rfl, rfl⟩
    simpa only [apply, htype] using hafter
  | typedef name expr =>
    obtain ⟨⟨type, attr⟩, htype⟩ := exists_ok_of_isItem hitem
    simp only [apply, htype]
    exact ⟨_, get?_define, rfl, rfl⟩
  | _ => exact absurd hitem Bool.false_ne_true

end Compile

/-! ## Whole inputs -/

namespace Compilation

open Source (Line Scope linesOf waitingDoc lastGroup handedOut)

/-- What the cursor remembers of the lines of an input. -/
theorem cursor_readLogical (c : Compilation) (file : String) (lines : List (Nat × List Char)) :
    (c.readLogical file lines {}).2.doc = waitingDoc (linesOf (lines.map Prod.snd))
      ∧ (c.readLogical file lines {}).2.group = lastGroup (linesOf (lines.map Prod.snd)) := by
  -- From the end: the last line is read where the lines before it have led.
  induction lines using List.reverseRecOn with
  | nil => exact ⟨rfl, rfl⟩
  | append_singleton lines line ih =>
    obtain ⟨n, text⟩ := line
    obtain ⟨hdoc, hgroup⟩ := ih
    have hfollows : Compile.Follows (c.readLogical file lines {}).1 (c.readLogical file lines {}).2
        (Scope.after .outside (lines.map Prod.snd)) :=
      follows_readLogical (Compile.follows_start c)
    have hread := hfollows.parse? text
    rw [readLogical_append, readLogical_cons, List.map_append, List.map_singleton,
      Source.linesOf_concat]
    show (Compile.step _ _ _ _).2.doc = _ ∧ (Compile.step _ _ _ _).2.group = _
    rw [Compile.step, ← hread]
    split
    · next hnone =>
      rw [hnone, Option.toList_none, List.append_nil]
      exact ⟨hdoc, hgroup⟩
    · next line hline =>
      rw [hline, Option.toList_some, Source.waitingDoc_concat, Source.lastGroup_concat, ← hdoc,
        ← hgroup]
      exact ⟨Compile.doc_apply line, Compile.group_apply line⟩

/-- In every input, and whatever has been read before it, an item is made with the documentation
that has come after the item before it in this input, and with the group that has been named last in
it.  All documentation is taken in order, each line of it once, up to what waits in the end. -/
theorem documentation_of_items (c : Compilation) (file : String) (lines : List (List Char)) :
    (handedOut [] (linesOf ((Source.logicalLines lines).map Prod.snd))).flatten
          ++ waitingDoc (linesOf ((Source.logicalLines lines).map Prod.snd))
        = (linesOf ((Source.logicalLines lines).map Prod.snd)).filterMap Line.docText?
      ∧ ∀ above n text below, Source.logicalLines lines = above ++ (n, text) :: below →
        ∀ c' k, c.readLogical file above {} = (c', k) →
          k.doc = waitingDoc (linesOf (above.map Prod.snd))
            ∧ k.group = lastGroup (linesOf (above.map Prod.snd))
            ∧ ∀ line, Line.parse? (k.place c') text = some line → line.isItem = true →
              Compile.Makes c'.types (Compile.step ⟨file, n⟩ text c' k).1.types k.block.type?
                (if k.doc = [] then none else some k.doc) k.group line := by
  refine ⟨Source.flatten_handedOut [] _, ?_⟩
  intro above n text below _ c' k hrun
  obtain ⟨hdoc, hgroup⟩ := cursor_readLogical c file above
  rw [hrun] at hdoc hgroup
  refine ⟨hdoc, hgroup, fun line hread hitem => ?_⟩
  have hmakes := Compile.makes_step ⟨file, n⟩ hread hitem
  rw [Cursor.doc?] at hmakes
  simpa only [List.isEmpty_iff] using hmakes

/-- Documentation with lines in between that take none: a section, a line that is not understood, a
count that is too large and a silent comment. -/
def documented : List (List Char) :=
  ["# one", "group \"G\"", "action A", "#two", "?", " input", "#  three",
    "  int(len > 18446744073709551616) a", "#- four", "  int b", "  int c"].map String.toList

def aboveDocumented : List (Nat × List Char) := (Source.logicalLines documented).take 9

def atDocumented : Compilation × Cursor := ({} : Compilation).readLogical "" aboveDocumented {}

theorem documentation_of_items_documented :
    let line : Line := .member false "b" ⟨"int", [], .plain⟩
    Source.logicalLines documented = aboveDocumented ++ (10, "  int b".toList)
        :: (Source.logicalLines documented).drop 10
      ∧ Line.parse? (atDocumented.2.place atDocumented.1) "  int b".toList = some line
      ∧ line.isItem = true
      ∧ atDocumented.2.doc = ["two", " three"] ∧ atDocumented.2.group = some "G"
      ∧ Compile.Makes atDocumented.1.types
        (Compile.step ⟨"", 10⟩ "  int b".toList atDocumented.1 atDocumented.2).1.types
        (some "A_input") (some ["two", " three"]) (some "G") line := by
  intro line
  have hlines : Source.logicalLines documented = aboveDocumented ++ (10, "  int b".toList)
      :: (Source.logicalLines documented).drop 10 := by decide +kernel
  have hread : Line.parse? (atDocumented.2.place atDocumented.1) "  int b".toList = some line := by
    decide +kernel
  have hopen : atDocumented.2.block.type? = some "A_input" := by decide +kernel
  obtain ⟨-, hitems⟩ := documentation_of_items {} "" documented
  obtain ⟨hdoc, hgroup, hmakes⟩ := hitems _ _ _ _ hlines atDocumented.1 atDocumented.2 rfl
  have hwaiting : waitingDoc (linesOf (aboveDocumented.map Prod.snd)) = ["two", " three"] := by
    decide +kernel
  have hlast : lastGroup (linesOf (aboveDocumented.map Prod.snd)) = some "G" := by decide +kernel
  rw [hwaiting] at hdoc
  rw [hlast] at hgroup
  have hmade := hmakes line hread rfl
  rw [hdoc, hgroup, hopen] at hmade
  exact ⟨hlines, hread, rfl, hdoc, hgroup, hmade⟩

end Compilation

end SchemaLang
