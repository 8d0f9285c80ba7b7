import SchemaLang.Proofs.Compile.Documentation

/-!
# What is open, field by field

A block says in one piece which action, which type and which list of URLs are open.  Here the three
are fields on their own: each line sets some of them and clears others, and nothing in their types
keeps an action that is not there or a list of URLs beside a type from being open.  That this does
not come about is `Sound`, which takes in the model, since lines redefine names and sections bring
types of their own.

Where it holds, what a line is for is there when the line is understood, so that no such line is
passed over.

* `Opened.after`, `Opened.runOf`: which fields a line sets and clears, and the lines of an input.
* `Compile.opened_apply`, `Compile.sound_apply`: the fields are those of the block, and stay sound.
* `Compile.takesEffect_step`: what a line has done once it has been read.
* `Compilation.lines_take_effect`: all this in every run.
-/

namespace SchemaLang

/-- What is open.  Nothing ties the fields to each other. -/
structure Opened where
  action : Option String := none
  type : Option String := none
  listed : Option (List Url) := none
  deriving DecidableEq

def Block.listed? : Block → Option (List Url)
  | .urls _ listed => some listed
  | _ => none

def Cursor.opened (k : Cursor) : Opened := ⟨k.block.action?, k.block.type?, k.block.listed?⟩

namespace Opened

open Source (Line Place)

def place (c : Compilation) (x : Opened) : Place where
  sections := x.action.isSome
  values := ((x.type.bind c.types.get?).bind Definition.enum?).isSome
  members := ((x.type.bind c.types.get?).bind Definition.struct?).isSome
  urls := x.listed.isSome

/-- The fields that a line sets and clears.  A section is named for the action that is found under
the name that is open. -/
def after (c : Compilation) (x : Opened) : Line → Opened
  | .action name => { action := some name }
  | .definition _ name _ => { type := some name }
  | .section s _ => match x.action.bind c.action? with
    | none => x
    | some a => { x with type := some (Compile.sectionTypeName a s), listed := none }
  | .urls => { x with type := none, listed := some [] }
  | .url method path =>
    { x with listed := x.listed.map (· ++ [⟨if method = "*" then none else some method, path⟩]) }
  | .typedef _ expr => if expr.type?.toOption.isSome then {} else x
  | _ => x

/-- What is open once a line has been read. -/
def next (c : Compilation) (x : Opened) (text : List Char) : Opened :=
  (Line.parse? (x.place c) text).elim x (x.after c)

/-- What is open after the lines of an input that is being read. -/
def runOf (file : String) : List (Nat × List Char) → Compilation → Cursor → Opened → Opened
  | [], _, _, x => x
  | (n, text) :: lines, c, k, x =>
    runOf file lines (Compile.step ⟨file, n⟩ text c k).1 (Compile.step ⟨file, n⟩ text c k).2
      (x.next c text)

/-- URLs are listed for an action and beside no type; the action that is open and the type that is
open are there; and a type that is open beside an action is one of its sections. -/
structure Sound (types : Types) (x : Opened) : Prop where
  listed : x.listed.isSome = true → x.action.isSome = true ∧ x.type = none
  action : ∀ key ∈ x.action, ∃ a, types.get? key = some (.action a) ∧ a.name = key
  type : ∀ name ∈ x.type, ∃ d, types.get? name = some d
    ∧ (d.struct?.isSome = true ∨ d.enum?.isSome = true)
  sections : ∀ key ∈ x.action, ∀ name ∈ x.type,
    ∃ a s, types.get? key = some (.action a) ∧ a.type? s = some name

end Opened

theorem Cursor.place_opened (c : Compilation) (k : Cursor) : k.opened.place c = k.place c := by
  rw [Opened.place, Cursor.place, Cursor.opened]
  cases k.block <;> rfl

/-! ## The invariant -/

namespace Opened

variable {types : Types} {x : Opened}

/-- Nothing is open where an input starts. -/
theorem sound_start (types : Types) : Sound types {} where
  listed h := absurd h Bool.false_ne_true
  action _ h := absurd h (Option.not_mem_none _)
  type _ h := absurd h (Option.not_mem_none _)
  sections _ h := absurd h (Option.not_mem_none _)

/-- An item or a URL leaves an action under its name and with its sections. -/
theorem exists_action_of_adds {key name : String} {d d' : Definition} {a : Action}
    (hd : types.get? key = some d) (ha : d'.Adds d) (hget : types.get? name = some (.action a)) :
    ∃ b, (types.insert key d').get? name = some (.action b) ∧ b.name = a.name
      ∧ ∀ s, b.type? s = a.type? s := by
  rw [NameMap.get?_insert]
  split
  · next he =>
    subst he
    obtain rfl := Option.some.inj (hd.symm.trans hget)
    cases ha with
    | url _ u => exact ⟨_, rfl, rfl, fun s => by cases s <;> rfl⟩
  · exact ⟨a, hget, rfl, fun _ => rfl⟩

/-- An item or a URL takes nothing away from what is open. -/
theorem Sound.adds {key : String} {d d' : Definition} (h : Sound types x)
    (hd : types.get? key = some d) (ha : d'.Adds d) : Sound (types.insert key d') x where
  listed := h.listed
  action name hname := by
    obtain ⟨a, hget, rfl⟩ := h.action name hname
    obtain ⟨b, hb, hn, -⟩ := exists_action_of_adds hd ha hget
    exact ⟨b, hb, hn⟩
  type name hname := by
    obtain ⟨e, hget, hkind⟩ := h.type name hname
    rw [NameMap.get?_insert]
    split
    · next he =>
      subst he
      obtain rfl := Option.some.inj (hd.symm.trans hget)
      exact ⟨d', rfl, by cases ha <;> exact hkind⟩
    · exact ⟨e, hget, hkind⟩
  sections key' hkey name hname := by
    obtain ⟨a, s, hget, hs⟩ := h.sections key' hkey name hname
    obtain ⟨b, hb, -, htype⟩ := exists_action_of_adds hd ha hget
    exact ⟨b, s, hb, (htype s).trans hs⟩

theorem sound_action {name : String} {a : Action} (ha : a.name = name) :
    Sound (types.insert name (.action a)) { action := some name } where
  listed h := absurd h Bool.false_ne_true
  action := by
    rintro _ ⟨⟩
    exact ⟨a, by rw [NameMap.get?_insert, if_pos rfl], ha⟩
  type _ h := absurd h (Option.not_mem_none _)
  sections _ _ _ h := absurd h (Option.not_mem_none _)

theorem sound_type {name : String} {d : Definition}
    (hd : d.struct?.isSome = true ∨ d.enum?.isSome = true) :
    Sound (types.insert name d) { type := some name } where
  listed h := absurd h Bool.false_ne_true
  action _ h := absurd h (Option.not_mem_none _)
  type := by
    rintro _ ⟨⟩
    exact ⟨d, by rw [NameMap.get?_insert, if_pos rfl], hd⟩
  sections _ h := absurd h (Option.not_mem_none _)

/-- The name of a section type is longer than that of its action, so that the action stays. -/
theorem get?_action_of_section (a : Action) (s : Section) (d : Definition) :
    ((types.insert a.name (.action (a.setType s (Compile.sectionTypeName a s)))).insert
      (Compile.sectionTypeName a s) d).get? a.name
        = some (.action (a.setType s (Compile.sectionTypeName a s))) := by
  rw [NameMap.get?_insert, if_neg (Compile.sectionTypeName_ne a s).symm, NameMap.get?_insert,
    if_pos rfl]

theorem sound_section {key : String} {a : Action} {s : Section} {d : Definition}
    (ha : a.name = key) (hd : d.struct?.isSome = true ∨ d.enum?.isSome = true) :
    Sound ((types.insert key (.action (a.setType s (Compile.sectionTypeName a s)))).insert
      (Compile.sectionTypeName a s) d)
      { action := some key, type := some (Compile.sectionTypeName a s) } := by
  subst ha
  refine ⟨fun h => absurd h Bool.false_ne_true, ?_, ?_, ?_⟩
  · rintro _ ⟨⟩
    exact ⟨_, get?_action_of_section a s d, Compile.name_setType a s _⟩
  · rintro _ ⟨⟩
    exact ⟨d, by rw [NameMap.get?_insert, if_pos rfl], hd⟩
  · rintro _ ⟨⟩ _ ⟨⟩
    exact ⟨_, s, get?_action_of_section a s d, by rw [Action.type?_setType, if_pos rfl]⟩

end Opened

namespace Compile

open Source (Line)
open Opened (Sound)

variable {pos : Position} {c : Compilation} {k : Cursor}

/-! ## The fields and the block -/

theorem sectionOf_eq {key : String} {a : Action} (hb : k.block.action? = some key)
    (ha : c.action? key = some a) (s : Section) (bases : Option (List String)) :
    sectionOf pos s bases c k =
      (((c.update key (.action (a.setType s (sectionTypeName a s)))).reportIf (a.type? s).isSome pos
          (.sectionRedefined s)).define pos (sectionTypeName a s)
          (sectionDefinition s (sectionTypeName a s) bases),
        { k with block := .section key (sectionTypeName a s) }) := by
  have hopen : (k.block.action?.bind fun name => (c.action? name).map fun a => (name, a))
      = some (key, a) := by
    rw [hb, Option.bind_some, ha, Option.map_some]
  rw [sectionOf, hopen]

theorem urls_eq {key : String} (hb : k.block.action? = some key) :
    urls pos c k = (c.reportIf ((c.action? key).bind Action.urls).isSome pos .urlsRedefined,
      { k with block := .urls key [] }) := by
  rw [urls, hb]

/-- An action that is open is found. -/
theorem exists_opened_action (h : Sound c.types k.opened) (hs : (k.place c).sections = true) :
    ∃ key a, k.block.action? = some key ∧ c.action? key = some a ∧ a.name = key := by
  obtain ⟨key, hb⟩ := Option.isSome_iff_exists.1 hs
  obtain ⟨a, ha, hn⟩ := h.action key hb
  exact ⟨key, a, hb, action?_eq_some_iff.2 ha, hn⟩

/-- The fields are set and cleared as the block changes. -/
theorem opened_apply (pos : Position) (h : Sound c.types k.opened) {line : Line}
    (hl : line.Allowed (k.place c)) : (apply pos line c k).2.opened = k.opened.after c line := by
  cases line with
  | comment doc => cases doc <;> rfl
  | «section» s bases =>
    obtain ⟨key, a, hb, ha, -⟩ := exists_opened_action h hl
    have hfound : k.opened.action.bind c.action? = some a := by
      rw [Cursor.opened, hb, Option.bind_some, ha]
    rw [apply, sectionOf_eq hb ha, Opened.after, hfound]
    exact congrArg (Opened.mk · _ none) hb.symm
  | urls =>
    obtain ⟨key, a, hb, -, -⟩ := exists_opened_action h hl
    rw [apply, urls_eq hb]
    exact congrArg (Opened.mk · none (some [])) hb.symm
  | url method path =>
    obtain ⟨block, doc, group⟩ := k
    cases block <;> rfl
  | member optional name expr =>
    rw [apply]
    split <;> rfl
  | typedef name expr =>
    rw [apply, Opened.after]
    split
    · next he => rw [he]; rfl
    · next he => rw [he]; rfl
  | _ => rfl

/-- Under a heading of URLs there is a list, and the action of the heading is found. -/
theorem exists_opened_listed (h : Sound c.types k.opened) (hu : (k.place c).urls = true) :
    ∃ key a listed, k.block = .urls key listed ∧ c.action? key = some a := by
  rw [Cursor.place] at hu
  dsimp only at hu
  split at hu
  · next key listed hb =>
    obtain ⟨a, ha, -⟩ := h.action key (by rw [Cursor.opened, hb]; rfl)
    exact ⟨key, a, listed, hb, action?_eq_some_iff.2 ha⟩
  · exact absurd hu Bool.false_ne_true

/-- A URL is recorded for the action that is open. -/
theorem records_apply (h : Sound c.types k.opened) {method : String} {path : Option String}
    (hu : (k.place c).urls = true) :
    ∃ key a listed, k.block = .urls key listed ∧ c.action? key = some a
      ∧ Records pos c k key a listed method.toList (path.map String.toList)
        (apply pos (.url method path) c k) := by
  obtain ⟨key, a, listed, hb, ha⟩ := exists_opened_listed h hu
  have hpath : (path.map String.toList).map String.ofList = path := by
    cases path <;> simp
  have hrecords : Records pos c k key a listed method.toList (path.map String.toList) _ :=
    records_url hb ha method.toList (path.map String.toList)
  rw [String.ofList_toList, hpath] at hrecords
  exact ⟨key, a, listed, hb, ha, hrecords⟩

/-- A line that introduces no name takes nothing away from what is open. -/
theorem sound_of_effect {x : Opened} {c' : Compilation} (h : Sound c.types x)
    (he : Effect pos c k none c') : Sound c'.types x := by
  cases he with
  | same ht =>
    rw [ht]
    exact h
  | adds hd ha ht =>
    rw [ht]
    exact h.adds hd ha

theorem sound_apply (pos : Position) (h : Sound c.types k.opened) {line : Line}
    (hl : line.Allowed (k.place c)) :
    Sound (apply pos line c k).1.types (k.opened.after c line) := by
  have heffect : Effect pos c k (introduced? c k line) (apply pos line c k).1 := effect_apply
  cases line with
  | comment doc => exact h
  | group name => exact h
  | action name =>
    rw [apply, action, Compilation.types_define]
    exact Opened.sound_action rfl
  | definition kind name bases =>
    have hkind : (newDefinition kind name bases k).struct?.isSome = true
        ∨ (newDefinition kind name bases k).enum?.isSome = true := by
      cases kind <;> simp [newDefinition, Definition.struct?, Definition.enum?]
    rw [apply, definition, Compilation.types_define]
    exact Opened.sound_type hkind
  | «section» s bases =>
    obtain ⟨key, a, hb, ha, hn⟩ := exists_opened_action h hl
    have hkind : (sectionDefinition s (sectionTypeName a s) bases).struct?.isSome = true
        ∨ (sectionDefinition s (sectionTypeName a s) bases).enum?.isSome = true := by
      cases s <;> simp [sectionDefinition, Definition.struct?, Definition.enum?]
    rw [← opened_apply pos h hl, apply, sectionOf_eq hb ha]
    simp only [Compilation.types_define, Compilation.types_reportIf, Compilation.types_update]
    exact Opened.sound_section hn hkind
  | urls =>
    obtain ⟨key, -, hb, -, -⟩ := exists_opened_action h hl
    have haction : k.opened.action.isSome = true := by
      rw [Cursor.opened, hb, Option.isSome_some]
    rw [apply, urls_eq hb, Compilation.types_reportIf]
    exact ⟨fun _ => ⟨haction, rfl⟩, h.action, fun _ hname => absurd hname (Option.not_mem_none _),
      fun _ _ _ hname => absurd hname (Option.not_mem_none _)⟩
  | value name => exact sound_of_effect h heffect
  | member optional name expr => exact sound_of_effect h heffect
  | url method path =>
    have hafter := sound_of_effect h heffect
    exact ⟨fun hlisted => h.listed (by rwa [Opened.after, Option.isSome_map] at hlisted),
      hafter.action, hafter.type, hafter.sections⟩
  | typedef name expr =>
    rw [Opened.after]
    cases he : expr.type? with
    | error digits =>
      rw [introduced?, he] at heffect
      exact sound_of_effect h heffect
    | ok meaning => exact Opened.sound_start _

/-! ## Lines that are understood -/

/-- A line that has been understood has done what it is for.  Remarks are remembered; a section and
a URL are recorded in the action that is open; an item is made, a member or a value in the type that
is open; and what has a count in it that is too large is reported.  A silent comment and an empty
line have nothing to remember. -/
def TakesEffect (pos : Position) (c : Compilation) (k : Cursor) (after : Compilation × Cursor) :
    Line → Prop
  | .comment doc => after.2.doc = k.doc ++ (doc.map docText).toList
  | .group name => after.2.group = name.map fun cs => String.ofList (Text.trim cs)
  | .section s bases => ∃ key a, k.block.action? = some key
    ∧ c.types.get? key = some (.action a)
    ∧ after.1.types.get? key = some (.action (a.setType s (sectionTypeName a s)))
    ∧ after.1.types.get? (sectionTypeName a s)
      = some (sectionDefinition s (sectionTypeName a s) bases)
    ∧ after.2.opened = { action := some key, type := some (sectionTypeName a s) }
  | .urls => ∃ key, k.block.action? = some key
    ∧ after.2.opened = { action := some key, listed := some [] }
  | .url method path => ∃ key a listed, k.block = .urls key listed
    ∧ c.types.get? key = some (.action a)
    ∧ Records pos c k key a listed method.toList (path.map String.toList) after
  | line => if line.isItem then Makes c.types after.1.types k.block.type? k.doc? k.group line
    else Reports pos c after.1

/-- What is no item for a count in it that is too large. -/
theorem exists_error_of_not_isItem {expr : Source.TypeExpr}
    (h : ¬expr.type?.toOption.isSome = true) : ∃ digits, expr.type? = .error digits := by
  cases he : expr.type? with
  | error digits => exact ⟨digits, rfl⟩
  | ok meaning =>
    rw [he] at h
    exact absurd rfl h

theorem takesEffect_step (pos : Position) (h : Sound c.types k.opened) {text : List Char}
    {line : Line} (hread : Line.parse? (k.place c) text = some line) :
    TakesEffect pos c k (step pos text c k) line := by
  have hl : line.Allowed (k.place c) := Line.allowed_of_parse? hread
  have hstep : step pos text c k = apply pos line c k := by
    rw [step, hread]
  have hmakes := makes_step pos hread
  rw [hstep] at hmakes ⊢
  cases line with
  | comment doc => exact doc_apply (.comment doc)
  | group name => rfl
  | «section» s bases =>
    obtain ⟨key, a, hb, ha, rfl⟩ := exists_opened_action h hl
    rw [apply, sectionOf_eq hb ha]
    refine ⟨_, a, hb, action?_eq_some_iff.1 ha, ?_, get?_define, rfl⟩
    simp only [Compilation.types_define, Compilation.types_reportIf, Compilation.types_update]
    exact Opened.get?_action_of_section a s _
  | urls =>
    obtain ⟨key, -, hb, -, -⟩ := exists_opened_action h hl
    rw [apply, urls_eq hb]
    exact ⟨key, hb, rfl⟩
  | url method path =>
    obtain ⟨key, a, listed, hb, ha, hrecords⟩ := records_apply h hl
    exact ⟨key, a, listed, hb, action?_eq_some_iff.1 ha, hrecords⟩
  | member optional name expr =>
    refine iteInduction (motive := id) hmakes fun hitem => ?_
    obtain ⟨digits, he⟩ := exists_error_of_not_isItem hitem
    rw [apply, he]
    exact ⟨.attributeValue digits, rfl⟩
  | typedef name expr =>
    refine iteInduction (motive := id) hmakes fun hitem => ?_
    obtain ⟨digits, he⟩ := exists_error_of_not_isItem hitem
    rw [apply, he]
    exact ⟨.attributeValue digits, rfl⟩
  | _ => exact hmakes rfl

/-! ## Runs -/

theorem opened_step (pos : Position) (h : Sound c.types k.opened) (text : List Char) :
    (step pos text c k).2.opened = k.opened.next c text := by
  rw [step, Opened.next, k.place_opened]
  cases hread : Line.parse? (k.place c) text with
  | none => rfl
  | some line => exact opened_apply pos h (Line.allowed_of_parse? hread)

theorem sound_step (pos : Position) (h : Sound c.types k.opened) (text : List Char) :
    Sound (step pos text c k).1.types (k.opened.next c text) := by
  rw [step, Opened.next, k.place_opened]
  cases hread : Line.parse? (k.place c) text with
  | none => exact h
  | some line => exact sound_apply pos h (Line.allowed_of_parse? hread)

end Compile

namespace Compilation

open Source (Line)
open Opened (Sound)

variable {c : Compilation} {k : Cursor}

/-- The fields go along with the block, and the invariant goes along with both. -/
theorem opened_readLogical (file : String) (lines : List (Nat × List Char))
    (h : Sound c.types k.opened) :
    (c.readLogical file lines k).2.opened = Opened.runOf file lines c k k.opened
      ∧ Sound (c.readLogical file lines k).1.types (Opened.runOf file lines c k k.opened) := by
  induction lines generalizing c k with
  | nil => exact ⟨rfl, h⟩
  | cons line lines ih =>
    obtain ⟨n, text⟩ := line
    have hopened := Compile.opened_step ⟨file, n⟩ h text
    have hsound := Compile.sound_step ⟨file, n⟩ h text
    rw [Opened.runOf, readLogical_cons, ← hopened]
    rw [← hopened] at hsound
    exact ih hsound

/-- In every run, from every compilation, the fields that are set and cleared line by line are sound
after each line, and the next line takes effect if it is understood. -/
theorem lines_take_effect {c : Compilation} {file : String} {lines : List (List Char)}
    {above below : List (Nat × List Char)} (hlines : Source.logicalLines lines = above ++ below)
    {c' : Compilation} {k : Cursor} (hrun : c.readLogical file above {} = (c', k)) :
    c.readLines file lines = (c'.readLogical file below k).1
      ∧ Opened.runOf file above c {} {} = k.opened ∧ Sound c'.types k.opened
      ∧ ∀ n text rest, below = (n, text) :: rest →
        ∀ line, Line.parse? (k.opened.place c') text = some line →
          Compile.TakesEffect ⟨file, n⟩ c' k (Compile.step ⟨file, n⟩ text c' k) line := by
  obtain ⟨hopened, hsound⟩ := opened_readLogical file above (k := {}) (Opened.sound_start c.types)
  rw [hrun] at hopened hsound
  rw [← hopened] at hsound
  refine ⟨?_, hopened.symm, hsound, fun n text _ _ line hread => ?_⟩
  · rw [readLines, hlines, readLogical_append, hrun]
  · rw [k.place_opened] at hread
    exact Compile.takesEffect_step ⟨file, n⟩ hsound hread

/-- A type that a section is going to replace. -/
def beforeSection : Compilation := ({} : Compilation).read "" "struct A_input\n int a\n"

def sectionLines : List (List Char) :=
  ["action A", " urls", "  GET /a", " input", "  int b"].map String.toList

def aboveMember : List (Nat × List Char) := (Source.logicalLines sectionLines).take 4

def atMember : Compilation × Cursor := beforeSection.readLogical "" aboveMember {}

/-- A member after a section that has come after URLs. -/
theorem lines_take_effect_member :
    let line : Line := .member false "b" ⟨"int", [], .plain⟩
    Source.logicalLines sectionLines = aboveMember ++ (Source.logicalLines sectionLines).drop 4
      ∧ beforeSection.readLogical "" aboveMember {} = (atMember.1, atMember.2)
      ∧ atMember.2.opened = { action := some "A", type := some "A_input" }
      ∧ Sound atMember.1.types { action := some "A", type := some "A_input" }
      ∧ Line.parse? (atMember.2.opened.place atMember.1) "  int b".toList = some line
      ∧ Compile.TakesEffect ⟨"", 5⟩ atMember.1 atMember.2
        (Compile.step ⟨"", 5⟩ "  int b".toList atMember.1 atMember.2) line := by
  intro line
  have hlines : Source.logicalLines sectionLines
      = aboveMember ++ (Source.logicalLines sectionLines).drop 4 := by decide +kernel
  have hnext : (Source.logicalLines sectionLines).drop 4 = [(5, "  int b".toList), (6, [])] := by
    decide +kernel
  have hopened : atMember.2.opened = { action := some "A", type := some "A_input" } := by
    decide +kernel
  have hread : Line.parse? (atMember.2.opened.place atMember.1) "  int b".toList = some line := by
    decide +kernel
  have hrun : beforeSection.readLogical "" aboveMember {} = (atMember.1, atMember.2) := rfl
  obtain ⟨-, -, hsound, htakes⟩ := lines_take_effect hlines hrun
  exact ⟨hlines, hrun, hopened, hopened ▸ hsound, hread, htakes 5 _ _ hnext line hread⟩

end Compilation

end SchemaLang
