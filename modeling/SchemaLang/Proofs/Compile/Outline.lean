import SchemaLang.Proofs.Compile.UrlLines
import SchemaLang.Proofs.Source.Outline

/-!
# A run follows the outline of its input

The block that is open is looked up in the model when a line is read: a line is a member or a value
if what stands under the name of the block is a struct or an enum.  But that definition has been
made by the same input, and no line of it changes its kind, so that what lines are read as does not
depend on the model, and neither do the names that they introduce.

* `Compile.Follows`: the cursor stands where the outline says.
* `Compile.Follows.step`, `Compilation.follows_readLogical`: it does so after every line.
* `Compilation.names_introductions`: the names that an input introduces, from its text.
-/

namespace SchemaLang

/-- Whether a definition lists values, as against members. -/
def Definition.isEnum? : Definition → Option Bool
  | .struct _ => some false
  | .enum _ => some true
  | _ => none

def Block.isUrls : Block → Bool
  | .urls _ _ => true
  | _ => false

namespace Compile

open Source (Line Scope DefinitionKind)

variable {pos : Position} {c : Compilation} {k : Cursor} {scope : Scope}

/-- The kind of the definition that is open. -/
def openKind? (types : Types) (block : Block) : Option Bool :=
  (block.type?.bind types.get?).bind Definition.isEnum?

theorem openKind?_eq {types : Types} {block : Block} {name : String} {d : Definition}
    (hb : block.type? = some name) (hd : types.get? name = some d) :
    openKind? types block = d.isEnum? := by
  rw [openKind?, hb, Option.bind_some, hd, Option.bind_some]

/-- A definition that gives way to one of its kind does not matter. -/
theorem openKind?_insert {types : Types} {name : String} {d d' : Definition}
    (hd : types.get? name = some d) (hkind : d'.isEnum? = d.isEnum?) (block : Block) :
    openKind? (types.insert name d') block = openKind? types block := by
  cases hb : block.type? with
  | none => simp only [openKind?, hb, Option.bind_none]
  | some key =>
    rw [openKind?, openKind?, hb, Option.bind_some, Option.bind_some, NameMap.get?_insert]
    by_cases he : name = key
    · subst he
      rw [if_pos rfl, hd, Option.bind_some, Option.bind_some, hkind]
    · rw [if_neg he]

/-- The cursor stands where the outline of the input says. -/
structure Follows (c : Compilation) (k : Cursor) (scope : Scope) : Prop where
  action : k.block.action? = scope.action?
  kind : openKind? c.types k.block = scope.enum?
  urls : k.block.isUrls = scope.isUrls
  hasAction : HasAction c.types k.block

theorem follows_start (c : Compilation) : Follows c {} .outside :=
  ⟨rfl, rfl, rfl, fun _ hkey => by cases hkey⟩

namespace Follows

/-- Neither documentation nor what has been reported matters. -/
theorem congr {c' : Compilation} {k' : Cursor} (h : Follows c k scope) (ht : c'.types = c.types)
    (hb : k'.block = k.block) : Follows c' k' scope := by
  obtain ⟨haction, hkind, hurls, hopen⟩ := h
  rw [← hb] at haction hkind hurls hopen
  rw [← ht] at hkind hopen
  exact ⟨haction, hkind, hurls, hopen⟩

theorem place (h : Follows c k scope) : k.place c = scope.place := by
  have hvalues : ∀ o : Option Definition,
      (o.bind Definition.enum?).isSome = (o.bind Definition.isEnum? == some true) := by
    rintro (_ | _ | _ | _ | _) <;> rfl
  have hmembers : ∀ o : Option Definition,
      (o.bind Definition.struct?).isSome = (o.bind Definition.isEnum? == some false) := by
    rintro (_ | _ | _ | _ | _) <;> rfl
  have hurls : (k.place c).urls = k.block.isUrls := by
    rw [Cursor.place]
    cases k.block <;> rfl
  rw [Scope.place, ← h.action, ← h.kind, ← h.urls, ← hurls]
  simp only [Cursor.place, openKind?, hvalues, hmembers]

theorem parse? (h : Follows c k scope) (text : List Char) :
    Line.parse? (k.place c) text = scope.read? text := by
  rw [h.place, Scope.read?]

/-- The action of the block, if there is one. -/
theorem exists_action (h : Follows c k scope) {key : String} (hkey : scope.action? = some key) :
    ∃ a, c.types.get? key = some (.action a) ∧ a.name = key :=
  h.hasAction key (h.action.trans hkey)

/-- Under a heading of URLs the cursor has a list. -/
theorem exists_listed {key : String} (h : Follows c k (.urls key)) :
    ∃ listed, k.block = .urls key listed := by
  have haction := h.action
  have hurls := h.urls
  cases hb : k.block with
  | urls other listed =>
    rw [hb] at haction
    obtain rfl : other = key := Option.some.inj haction
    exact ⟨listed, rfl⟩
  | _ => simp [hb, Block.isUrls, Scope.isUrls] at hurls

theorem introduced? (h : Follows c k scope) (line : Line) :
    (Compile.introduced? c k line).map Introduction.name = scope.introduced? line := by
  cases line with
  | «section» s bases =>
    rw [Compile.introduced?, Scope.introduced?, h.action]
    cases hs : scope.action? with
    | none => rfl
    | some key =>
      obtain ⟨a, ha, rfl⟩ := h.exists_action hs
      rw [Option.bind_some, action?_eq_some_iff.2 ha]
      rfl
  | typedef name expr =>
    rw [Compile.introduced?, Scope.introduced?, Option.map_map]
    rfl
  | _ => rfl

/-! ## One line -/

theorem sectionOf (h : Follows c k scope) (s : Section) (bases : Option (List String))
    (hopen : HasAction (Compile.sectionOf pos s bases c k).1.types
      (Compile.sectionOf pos s bases c k).2.block) :
    Follows (Compile.sectionOf pos s bases c k).1 (Compile.sectionOf pos s bases c k).2
      (scope.enter (.section s bases)) := by
  rw [Scope.enter]
  cases hs : scope.action? with
  | none =>
    have hnone : Compile.sectionOf pos s bases c k = (c, k) := by
      rw [Compile.sectionOf, h.action, hs]
      rfl
    rwa [hnone]
  | some key =>
    obtain ⟨a, ha, -⟩ := h.exists_action hs
    have hsome : (k.block.action?.bind fun name => (c.action? name).map fun a => (name, a))
        = some (key, a) := by
      rw [h.action, hs, Option.bind_some, action?_eq_some_iff.2 ha]
      rfl
    rw [Compile.sectionOf, hsome] at hopen ⊢
    have hkind : (sectionDefinition s (sectionTypeName a s) bases).isEnum?
        = some (s == .errors) := by
      cases s <;> rfl
    refine ⟨rfl, (openKind?_eq rfl ?_).trans hkind, rfl, hopen⟩
    simp only [Compilation.types_define, NameMap.get?_insert, if_true]

theorem urlsOf (h : Follows c k scope)
    (hopen : HasAction (Compile.urls pos c k).1.types (Compile.urls pos c k).2.block) :
    Follows (Compile.urls pos c k).1 (Compile.urls pos c k).2 (scope.enter .urls) := by
  rw [Scope.enter]
  cases hs : scope.action? with
  | none =>
    have hnone : Compile.urls pos c k = (c, k) := by
      rw [Compile.urls, h.action, hs]
    rwa [hnone]
  | some key =>
    rw [Compile.urls, h.action, hs] at hopen ⊢
    exact ⟨rfl, rfl, rfl, hopen⟩

theorem value (h : Follows c k scope) (name : String)
    (hopen : HasAction (Compile.value pos name c k).1.types k.block) :
    Follows (Compile.value pos name c k).1 (Compile.value pos name c k).2 scope := by
  refine ⟨h.action, ?_, h.urls, hopen⟩
  rw [← h.kind, Compile.value]
  dsimp only
  split
  · rfl
  · next key e he =>
    have hget := get?_of_open he fun _ _ => Definition.eq_of_enum?
    rw [Compilation.types_locate, Compilation.types_update]
    refine openKind?_insert hget ?_ k.block
    rfl

theorem member (h : Follows c k scope) (m : Member)
    (hopen : HasAction (Compile.member pos m c k).1.types k.block) :
    Follows (Compile.member pos m c k).1 (Compile.member pos m c k).2 scope := by
  refine ⟨h.action, ?_, h.urls, hopen⟩
  rw [← h.kind, Compile.member]
  dsimp only
  split
  · rfl
  · next key s hs =>
    have hget := get?_of_open hs fun _ _ => Definition.eq_of_struct?
    rw [Compilation.types_locate, Compilation.types_update]
    refine openKind?_insert hget ?_ k.block
    rfl

theorem url (h : Follows c k scope) (method : String) (path : Option String)
    (hopen : HasAction (Compile.url pos method path c k).1.types
      (Compile.url pos method path c k).2.block) :
    Follows (Compile.url pos method path c k).1 (Compile.url pos method path c k).2 scope := by
  obtain ⟨haction, hkind, hurls, hold⟩ := h
  rw [Compile.url] at hopen ⊢
  split
  · next key listed hb =>
    rw [hb] at haction hkind hurls hopen
    exact ⟨haction, hkind, hurls, hopen⟩
  · exact ⟨haction, hkind, hurls, hold⟩

theorem apply (h : Follows c k scope) (line : Line) :
    Follows (Compile.apply pos line c k).1 (Compile.apply pos line c k).2 (scope.enter line) := by
  have hopen : HasAction (Compile.apply pos line c k).1.types (Compile.apply pos line c k).2.block :=
    hasAction_apply h.hasAction
  cases line with
  | comment doc => cases doc <;> exact h.congr rfl rfl
  | group name => exact h.congr rfl rfl
  | action name => exact ⟨rfl, rfl, rfl, hopen⟩
  | definition kind name bases =>
    have hkind : (newDefinition kind name bases k).isEnum? = some (kind == .enum) := by
      cases kind <;> rfl
    refine ⟨rfl, (openKind?_eq rfl ?_).trans hkind, rfl, hopen⟩
    rw [Compile.apply, Compile.definition, Compilation.types_define, NameMap.get?_insert,
      if_pos rfl]
  | «section» s bases => exact h.sectionOf s bases hopen
  | urls => exact h.urlsOf hopen
  | value name => exact h.value name hopen
  | member optional name expr =>
    rw [Compile.apply] at hopen ⊢
    split
    · exact h.congr rfl rfl
    · next he =>
      rw [he] at hopen
      exact h.member _ hopen
  | url method path => exact h.url method path hopen
  | typedef name expr =>
    rw [Compile.apply] at hopen ⊢
    rw [Scope.enter]
    split
    · next he =>
      rw [he]
      exact h.congr rfl rfl
    · next he =>
      rw [he] at hopen ⊢
      exact ⟨rfl, rfl, rfl, hopen⟩

theorem step (h : Follows c k scope) (text : List Char) :
    Follows (Compile.step pos text c k).1 (Compile.step pos text c k).2 (scope.next text) := by
  have hread := h.parse? text
  rw [Compile.step, Scope.next]
  split
  · next hnone =>
    rw [← hread, hnone]
    exact h.congr rfl rfl
  · next line hline =>
    rw [← hread, hline]
    exact h.apply line

end Follows

end Compile

/-! ## Whole inputs -/

namespace Compilation

open Compile (Follows)

variable {file : String} {c : Compilation} {k : Cursor} {scope : Source.Scope}

theorem follows_readLogical {lines : List (Nat × List Char)} (h : Follows c k scope) :
    Follows (c.readLogical file lines k).1 (c.readLogical file lines k).2
      (scope.after (lines.map Prod.snd)) := by
  induction lines generalizing c k scope with
  | nil => exact h
  | cons line lines ih => exact ih (h.step line.2)

/-- The names that an input introduces depend on its text alone. -/
theorem names_introductions {lines : List (Nat × List Char)} (h : Follows c k scope) :
    (introductions file lines c k).map Introduction.name
      = (Source.readings scope (lines.map Prod.snd)).filterMap
        fun (scope, line) => scope.introduced? line := by
  induction lines generalizing c k scope with
  | nil => rfl
  | cons line lines ih =>
    obtain ⟨n, text⟩ := line
    rw [introductions, List.map_append, ih (h.step text), List.map_cons, Source.readings,
      List.filterMap_append, h.parse?]
    cases scope.read? text with
    | none => rfl
    | some line =>
      have hname := h.introduced? line
      rw [Option.bind_some]
      show _ = (scope.introduced? line).toList ++ _
      rw [← hname]
      cases Compile.introduced? c k line <;> rfl

end Compilation

end SchemaLang
