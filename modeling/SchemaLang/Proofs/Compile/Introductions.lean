import SchemaLang.Proofs.Compile
import SchemaLang.Proofs.Text.Pieces

/-!
# Which lines introduce a name

Headers, typedefs and sections put a definition under a name.  A header or a typedef whose name is
in use is reported, whatever the name is in use for.  A section of an action brings a type with it
and is reported when the action has that section already, but the name of the type is not looked
up: what has been defined under it gives way without a word.

* `Compile.effect_apply`: all that a line can do to the definitions.
* `Compile.Effect.kept_or_reported`: a definition is kept or its loss is reported, unless it gives
  way to a section.
* `Compile.OpensSection.not_reports`: what gives way to a section is never reported.
* `Compilation.Recorded.effect`, `Compilation.recorded_readLogical`: where nothing is reported, a
  name is introduced by at most one header and after it by at most one section.
* `exists_silent_replacement`: the section of an action takes the place of a struct.
-/

namespace SchemaLang

/-! ## Names of section types -/

/-- The name of a section type can be taken apart again. -/
theorem Compile.sectionTypeName_inj {a b : Action} {s t : Section}
    (h : sectionTypeName a s = sectionTypeName b t) : a.name = b.name ∧ s = t := by
  have hbar : ∀ s : Section, '_' ∉ s.name.toList.reverse := fun s => by cases s <;> decide
  have hinj : ∀ s t : Section, s.name.toList.reverse = t.name.toList.reverse → s = t :=
    fun s t => by cases s <;> cases t <;> decide
  have hr : s.name.toList.reverse ++ '_' :: a.name.toList.reverse
      = t.name.toList.reverse ++ '_' :: b.name.toList.reverse := by
    have hl := congrArg (fun name : String => name.toList.reverse) h
    simpa [sectionTypeName] using hl
  -- The last bar ends the name of the action.
  have hcut := congrArg (Text.splitAt '_') hr
  rw [Text.splitAt_append (hbar s), Text.splitAt_append (hbar t)] at hcut
  have hs := (List.cons.inj hcut).1
  rw [hs] at hr
  have ha := (List.cons.inj (List.append_cancel_left hr)).2
  exact ⟨String.toList_inj.1 (List.reverse_injective ha), hinj s t hs⟩

/-! ## Definitions that are kept -/

/-- A definition and the same one with an item or a URL added. -/
inductive Definition.Adds : Definition → Definition → Prop
  | member (s : Struct) (m : Member) :
      Adds (.struct { s with members := some (s.members.getD [] ++ [m]) }) (.struct s)
  | value (e : Enum) (v : EnumValue) :
      Adds (.enum { e with values := some (e.values.getD [] ++ [v]) }) (.enum e)
  | url (a : Action) (u : Url) :
      Adds (.action { a with urls := some (a.urls.getD [] ++ [u]) }) (.action a)

/-- Nothing of the second definition is lost in the first, which may have more items, URLs and
sections. -/
def Definition.Extends : Definition → Definition → Prop
  | .struct s', .struct s =>
    s' = { s with members := s'.members } ∧ s.members.getD [] <+: s'.members.getD []
  | .enum e', .enum e =>
    e' = { e with values := e'.values } ∧ e.values.getD [] <+: e'.values.getD []
  | .typedef t', .typedef t => t' = t
  | .action a', .action a =>
    (a'.name = a.name ∧ a'.doc = a.doc ∧ a'.docGroup = a.docGroup)
      ∧ a.urls.getD [] <+: a'.urls.getD []
      ∧ ∀ s name, a.type? s = some name → a'.type? s = some name
  | _, _ => False

theorem Definition.Extends.refl (d : Definition) : d.Extends d := by
  cases d with
  | struct s => exact ⟨rfl, List.prefix_rfl⟩
  | enum e => exact ⟨rfl, List.prefix_rfl⟩
  | typedef t => exact rfl
  | action a => exact ⟨⟨rfl, rfl, rfl⟩, List.prefix_rfl, fun _ _ h => h⟩

theorem Definition.Adds.extends {d' d : Definition} (h : d'.Adds d) : d'.Extends d := by
  cases h with
  | member s m => exact ⟨rfl, List.prefix_append _ _⟩
  | value e v => exact ⟨rfl, List.prefix_append _ _⟩
  | url a u => exact ⟨⟨rfl, rfl, rfl⟩, List.prefix_append _ _, fun s _ h => by cases s <;> exact h⟩

theorem Definition.extends_setType {a : Action} {s : Section} (name : String)
    (h : a.type? s = none) : (Definition.action (a.setType s name)).Extends (.action a) := by
  refine ⟨by cases s <;> exact ⟨rfl, rfl, rfl⟩, by cases s <;> exact List.prefix_rfl, ?_⟩
  intro t other ht
  rw [Action.type?_setType, if_neg, ht]
  rintro rfl
  simp [h] at ht

/-- An action that an item has been added to has the sections that it has had. -/
theorem Definition.Adds.action {a' : Action} {d : Definition} (h : (Definition.action a').Adds d) :
    ∃ a, d = .action a ∧ a'.name = a.name ∧ ∀ s, a'.type? s = a.type? s := by
  generalize hd : Definition.action a' = d' at h
  cases h with
  | member s m => simp at hd
  | value e v => simp at hd
  | url a u =>
    cases hd
    exact ⟨a, rfl, rfl, fun s => by cases s <;> rfl⟩

/-! ## What a line does -/

/-- What brings a definition under a name. -/
inductive Origin
  /-- A header or a typedef. -/
  | header
  /-- A section of an action. -/
  | section
  deriving DecidableEq

/-- A name that a line puts a definition under. -/
structure Introduction where
  name : String
  origin : Origin
  deriving DecidableEq

namespace Compile

open Source (Line DefinitionKind)

/-- The name that a line introduces where the cursor stands. -/
def introduced? (c : Compilation) (k : Cursor) : Line → Option Introduction
  | .action name => some ⟨name, .header⟩
  | .definition _ name _ => some ⟨name, .header⟩
  | .section s _ => (k.block.action?.bind c.action?).map fun a => ⟨sectionTypeName a s, .section⟩
  | .typedef name expr => expr.type?.toOption.map fun _ => ⟨name, .header⟩
  | _ => none

/-- A diagnostic at the line has been added. -/
def Reports (pos : Position) (c c' : Compilation) : Prop :=
  ∃ fault : Fault, c'.log = ⟨pos, fault.message⟩ :: c.log

/-- What a line that introduces a name, or none, does to the definitions where the cursor stands. -/
inductive Effect (pos : Position) (c : Compilation) (k : Cursor) :
    Option Introduction → Compilation → Prop
  | same {c' : Compilation} (ht : c'.types = c.types) : Effect pos c k none c'
  | adds {c' : Compilation} {key : String} {d d' : Definition} (hd : c.types.get? key = some d)
      (ha : d'.Adds d) (ht : c'.types = c.types.insert key d') : Effect pos c k none c'
  | header {c' : Compilation} {name : String} {d : Definition}
      (hr : c.types.contains name = true → Reports pos c c')
      (hd : ∀ a, d = .action a → a.name = name ∧ ∀ s, a.type? s = none)
      (ht : c'.types = c.types.insert name d) : Effect pos c k (some ⟨name, .header⟩) c'
  | section {c' : Compilation} {key : String} {a : Action} {s : Section} {d : Definition}
      (hb : k.block.action? = some key) (hk : c.types.get? key = some (.action a))
      (hr : a.type? s ≠ none → Reports pos c c') (hd : ∀ a, d ≠ .action a)
      (ht : c'.types = (c.types.insert key (.action (a.setType s (sectionTypeName a s)))).insert
        (sectionTypeName a s) d) :
      Effect pos c k (some ⟨sectionTypeName a s, .section⟩) c'

variable {pos : Position} {c : Compilation} {k : Cursor}

theorem log_reportIf (b : Bool) (fault : Fault) :
    (c.reportIf b pos fault).log = if b then ⟨pos, fault.message⟩ :: c.log else c.log := by
  cases b <;> rfl

theorem reports_reportIf {b : Bool} {fault : Fault} :
    Reports pos c (c.reportIf b pos fault) ↔ b = true := by
  refine ⟨fun ⟨other, h⟩ => ?_, fun h => ⟨fault, ?_⟩⟩
  · by_contra hb
    rw [log_reportIf, if_neg hb] at h
    exact List.cons_ne_self _ _ h.symm
  · rw [log_reportIf, if_pos h]

theorem isTaken_of_contains {name : String} (h : c.types.contains name = true) :
    c.isTaken name = true := by
  rw [Compilation.isTaken, h, Bool.or_true]

theorem effect_define {name : String} {d : Definition} {b : Bool} {fault : Fault}
    (hb : c.types.contains name = true → b = true)
    (hd : ∀ a, d = .action a → a.name = name ∧ ∀ s, a.type? s = none) :
    Effect pos c k (some ⟨name, .header⟩) ((c.reportIf b pos fault).define pos name d) := by
  refine .header (fun hc => ⟨fault, ?_⟩) hd ?_
  · show (c.reportIf b pos fault).log = _
    rw [log_reportIf, if_pos (hb hc)]
  · rw [Compilation.types_define, Compilation.types_reportIf]

theorem effect_section {s : Section} {bases : Option (List String)} :
    Effect pos c k (introduced? c k (.section s bases)) (sectionOf pos s bases c k).1 := by
  rw [sectionOf, introduced?]
  cases hk : k.block.action? with
  | none => exact .same rfl
  | some key =>
    rw [Option.bind_some, Option.bind_some]
    cases ha : c.action? key with
    | none => exact .same rfl
    | some a =>
      rw [Option.map_some]
      let d := sectionDefinition s (sectionTypeName a s) bases
      refine .section (d := d) hk (action?_eq_some_iff.1 ha) (fun hs => ?_)
        (sectionDefinition_ne_action s _ bases) ?_
      · exact reports_reportIf.2 (Option.isSome_iff_ne_none.2 hs)
      · show ((Compilation.reportIf _ _ _ _).define _ _ _).types = _
        rw [Compilation.types_define, Compilation.types_reportIf, Compilation.types_update]

theorem effect_value {name : String} : Effect pos c k none (value pos name c k).1 := by
  rw [value]
  simp only
  split
  · exact .same rfl
  · next key e he =>
    exact .adds (get?_of_open he fun _ _ => Definition.eq_of_enum?) (.value e _) rfl

theorem effect_member {m : Member} : Effect pos c k none (member pos m c k).1 := by
  rw [member]
  simp only
  split
  · exact .same rfl
  · next key s hs =>
    exact .adds (get?_of_open hs fun _ _ => Definition.eq_of_struct?) (.member s _) rfl

theorem effect_url {method : String} {path : Option String} :
    Effect pos c k none (url pos method path c k).1 := by
  rw [url]
  split
  · next key listed =>
    simp only
    split
    · exact .same (by rw [Compilation.types_reportIf])
    · next a ha =>
      have hget := action?_eq_some_iff.1 ha
      rw [Compilation.types_reportIf] at hget
      exact .adds hget (.url a _) (by rw [Compilation.types_update, Compilation.types_reportIf])
  · exact .same rfl

theorem effect_apply {line : Line} :
    Effect pos c k (introduced? c k line) (apply pos line c k).1 := by
  cases line with
  | comment doc => exact .same rfl
  | group name => exact .same rfl
  | action name =>
    refine effect_define id fun a ha => ?_
    cases ha
    exact ⟨rfl, fun s => by cases s <;> rfl⟩
  | definition kind name bases =>
    refine effect_define isTaken_of_contains fun a ha => ?_
    cases kind <;> simp [newDefinition] at ha
  | «section» s bases => exact effect_section
  | urls =>
    rw [apply, urls]
    split
    · exact .same rfl
    · exact .same (by rw [Compilation.types_reportIf])
  | value name => exact effect_value
  | member optional name expr =>
    rw [apply]
    split
    · exact .same rfl
    · exact effect_member
  | url method path => exact effect_url
  | typedef name expr =>
    rw [apply, introduced?]
    split
    · next he => exact he ▸ .same rfl
    · next he => exact he ▸ effect_define isTaken_of_contains fun a ha => by simp at ha

theorem effect_step {text : List Char} :
    Effect pos c k ((Line.parse? (k.place c) text).bind (introduced? c k))
      (step pos text c k).1 := by
  rw [step]
  split
  · next h => exact h ▸ .same rfl
  · next h => exact h ▸ effect_apply

/-- Only a section brings a type with it. -/
theorem exists_of_introduced?_section {line : Line} {name : String}
    (h : introduced? c k line = some ⟨name, .section⟩) :
    ∃ s bases a, line = .section s bases ∧ k.block.action?.bind c.action? = some a
      ∧ sectionTypeName a s = name := by
  cases line with
  | «section» s bases =>
    obtain ⟨a, ha, he⟩ := Option.map_eq_some_iff.1 h
    exact ⟨s, bases, a, rfl, ha, congrArg Introduction.name he⟩
  | typedef name expr =>
    obtain ⟨_, -, he⟩ := Option.map_eq_some_iff.1 h
    simp at he
  | _ => simp [introduced?] at h

/-- The line opens a section that its action has not had, and the type of the section has this
name. -/
def OpensSection (c : Compilation) (k : Cursor) (line : List Char) (name : String) : Prop :=
  ∃ s bases a, Line.parse? (k.place c) line = some (.section s bases)
    ∧ k.block.action?.bind c.action? = some a ∧ a.type? s = none ∧ sectionTypeName a s = name

/-- A section that is opened is not reported, whatever the name of its type is in use for. -/
theorem OpensSection.not_reports {line : List Char} {name : String}
    (h : OpensSection c k line name) : ¬Reports pos c (step pos line c k).1 := by
  obtain ⟨s, bases, a, hl, ha, hs, -⟩ := h
  obtain ⟨key, hk, ha⟩ := Option.bind_eq_some_iff.1 ha
  have hstep : step pos line c k = sectionOf pos s bases c k := by
    rw [step, hl]
    rfl
  rw [hstep, sectionOf, hk, Option.bind_some, ha]
  intro hr
  have hsome : (a.type? s).isSome = true := (reports_reportIf (c := c.update key _)).1 hr
  rw [hs] at hsome
  exact Bool.noConfusion hsome

/-! ## What is kept -/

/-- A definition is kept or its loss is reported, unless it stands where the type of a section is
put that the action has not had before. -/
theorem Effect.kept_or_reported {i : Option Introduction} {c' : Compilation}
    (he : Effect pos c k i c') {name : String} {d : Definition}
    (hd : c.types.get? name = some d) :
    (∃ d', c'.types.get? name = some d' ∧ d'.Extends d)
      ∨ Reports pos c c'
      ∨ ∃ key a s, k.block.action? = some key ∧ c.types.get? key = some (.action a)
        ∧ a.type? s = none ∧ sectionTypeName a s = name ∧ i = some ⟨name, .section⟩ := by
  cases he with
  | same ht => exact .inl ⟨d, ht ▸ hd, .refl d⟩
  | @adds _ key d₁ d₂ hd₁ ha ht =>
    left
    rw [ht, NameMap.get?_insert]
    by_cases hn : key = name
    · subst hn
      obtain rfl : d₁ = d := Option.some.inj (hd₁.symm.trans hd)
      exact ⟨d₂, if_pos rfl, ha.extends⟩
    · exact ⟨d, by rw [if_neg hn, hd], .refl d⟩
  | @header _ other _ hr _ ht =>
    by_cases hn : other = name
    · refine .inr (.inl (hr ?_))
      rw [hn, NameMap.contains, hd]
      rfl
    · left
      rw [ht, NameMap.get?_insert, if_neg hn]
      exact ⟨d, hd, .refl d⟩
  | @«section» _ key a s _ hb hk hr _ ht =>
    by_cases hs : a.type? s = none
    · by_cases hn : sectionTypeName a s = name
      · exact .inr (.inr ⟨key, a, s, hb, hk, hs, hn, by rw [hn]⟩)
      · left
        rw [ht, NameMap.get?_insert, if_neg hn, NameMap.get?_insert]
        by_cases hkn : key = name
        · subst hkn
          obtain rfl : .action a = d := Option.some.inj (hk.symm.trans hd)
          exact ⟨_, if_pos rfl, Definition.extends_setType _ hs⟩
        · exact ⟨d, by rw [if_neg hkn, hd], .refl d⟩
    · exact .inr (.inl (hr hs))

/-! ## Nothing is reported -/

theorem suffix_log_reportIf (b : Bool) (fault : Fault) :
    c.log <:+ (c.reportIf b pos fault).log := by
  cases b with
  | false => exact List.suffix_rfl
  | true => exact List.suffix_cons _ _

theorem suffix_log_apply {line : Line} : c.log <:+ (apply pos line c k).1.log := by
  cases line with
  | comment doc => exact List.suffix_rfl
  | group name => exact List.suffix_rfl
  | action name => exact suffix_log_reportIf _ _
  | definition kind name bases => exact suffix_log_reportIf _ _
  | «section» s bases =>
    rw [apply, sectionOf]
    split
    · exact List.suffix_rfl
    · next key a _ => exact suffix_log_reportIf (c := c.update key _) _ _
  | urls =>
    rw [apply, urls]
    split
    · exact List.suffix_rfl
    · exact suffix_log_reportIf _ _
  | value name =>
    rw [apply, value]
    simp only
    split <;> exact List.suffix_rfl
  | member optional name expr =>
    rw [apply]
    split
    · exact List.suffix_cons _ _
    · rw [member]
      simp only
      split <;> exact List.suffix_rfl
  | url method path =>
    rw [apply, url]
    split
    · simp only
      split <;> exact suffix_log_reportIf _ _
    · exact List.suffix_rfl
  | typedef name expr =>
    rw [apply]
    split
    · exact List.suffix_cons _ _
    · exact suffix_log_reportIf _ _

/-- Diagnostics stay. -/
theorem suffix_log_step {text : List Char} : c.log <:+ (step pos text c k).1.log := by
  rw [step]
  split
  · exact List.suffix_cons _ _
  · exact suffix_log_apply

theorem not_reports {c' : Compilation} (h : c'.log = []) : ¬Reports pos c c' := by
  rintro ⟨fault, hr⟩
  simp [h] at hr

end Compile

/-! ## How often a name is introduced -/

namespace Introduction

/-- How a name has been introduced, first one first. -/
def origins (seen : List Introduction) (name : String) : List Origin :=
  (seen.filter fun i => i.name = name).map origin

theorem origins_append (seen : List Introduction) (i : Introduction) (name : String) :
    origins (seen ++ [i]) name = origins seen name ++ if i.name = name then [i.origin] else [] := by
  rw [origins, List.filter_append, List.map_append]
  by_cases h : i.name = name <;> simp [origins, h]

/-- What may introduce one name where nothing is reported. -/
def lawful : List (List Origin) := [[], [.header], [.section], [.header, .section]]

theorem lawful_append_section {os : List Origin} (h : os ∈ lawful) (hs : .section ∉ os) :
    os ++ [.section] ∈ lawful := by
  simp only [lawful, List.mem_cons, List.not_mem_nil, or_false] at h
  rcases h with rfl | rfl | rfl | rfl
  · decide
  · decide
  · exact absurd List.mem_cons_self hs
  · exact absurd (List.mem_cons_of_mem _ List.mem_cons_self) hs

end Introduction

namespace Compilation

open Introduction (origins lawful)

/-- The names that lines introduce, in order. -/
def introductions (file : String) :
    List (Nat × List Char) → Compilation → Cursor → List Introduction
  | [], _, _ => []
  | (n, text) :: lines, c, k =>
    let next := Compile.step ⟨file, n⟩ text c k
    ((Source.Line.parse? (k.place c) text).bind (Compile.introduced? c k)).toList
      ++ introductions file lines next.1 next.2

/-- The introductions that have been seen account for the definitions of a compilation in which
nothing has been reported. -/
structure Recorded (c : Compilation) (seen : List Introduction) : Prop where
  contains : ∀ name, c.types.contains name = true ↔ origins seen name ≠ []
  allowed : ∀ name, origins seen name ∈ lawful
  named : ∀ key a, c.types.get? key = some (.action a) → a.name = key
  /-- A section type has an action of its own, which may have given way to another definition. -/
  owned : ∀ (a : Action) s, .section ∈ origins seen (Compile.sectionTypeName a s) →
    c.types.contains a.name = true
  opened : ∀ key a s, c.types.get? key = some (.action a) →
    .section ∈ origins seen (Compile.sectionTypeName a s) → a.type? s ≠ none

theorem recorded_empty : Recorded {} [] where
  contains name := by simp [NameMap.contains, show (∅ : Types).get? name = none from rfl, origins]
  allowed name := by simp [origins, Introduction.lawful]
  named key a h := by simp [show (∅ : Types).get? key = none from rfl] at h
  owned a s h := by simp [origins] at h
  opened key a s h := by simp [show (∅ : Types).get? key = none from rfl] at h

variable {pos : Position} {c c' : Compilation} {k : Cursor} {seen : List Introduction}

/-- Nothing is introduced where the names and the sections of actions stay what they are. -/
theorem Recorded.of_same (h : Recorded c seen)
    (hc : ∀ name, c'.types.contains name = true ↔ c.types.contains name = true)
    (ha : ∀ key a', c'.types.get? key = some (.action a') →
      ∃ a, c.types.get? key = some (.action a) ∧ a'.name = a.name ∧ ∀ s, a'.type? s = a.type? s) :
    Recorded c' seen where
  contains name := (hc name).trans (h.contains name)
  allowed := h.allowed
  named key a' hk := by
    obtain ⟨a, hg, hn, -⟩ := ha key a' hk
    rw [hn, h.named key a hg]
  owned a s hs := (hc a.name).2 (h.owned a s hs)
  opened key a' s hk hs := by
    obtain ⟨a, hg, hn, ht⟩ := ha key a' hk
    rw [Compile.sectionTypeName, hn] at hs
    rw [ht]
    exact h.opened key a s hg hs

theorem Recorded.adds {key : String} {d d' : Definition} (h : Recorded c seen)
    (hd : c.types.get? key = some d) (ha : d'.Adds d) (ht : c'.types = c.types.insert key d') :
    Recorded c' seen := by
  refine h.of_same (fun name => ?_) fun other a' hk => ?_
  · rw [ht, NameMap.contains_insert, or_iff_right_of_imp]
    rintro rfl
    rw [NameMap.contains, hd]
    rfl
  · rw [ht, NameMap.get?_insert] at hk
    split at hk
    · next he =>
      rw [Option.some.inj hk] at ha
      obtain ⟨a, rfl, hn, hs⟩ := ha.action
      exact ⟨a, he ▸ hd, hn, hs⟩
    · exact ⟨a', hk, rfl, fun _ => rfl⟩

theorem Recorded.header {name : String} {d : Definition} (h : Recorded c seen)
    (hc : c.types.contains name ≠ true)
    (hd : ∀ a, d = .action a → a.name = name ∧ ∀ s, a.type? s = none)
    (ht : c'.types = c.types.insert name d) :
    Recorded c' (seen ++ [⟨name, .header⟩]) := by
  have hnew : origins seen name = [] := not_not.1 (mt (h.contains name).2 hc)
  have hs : ∀ other, .section ∈ origins (seen ++ [⟨name, .header⟩]) other →
      .section ∈ origins seen other := by
    intro other hm
    rw [Introduction.origins_append, List.mem_append] at hm
    rcases hm with hm | hm
    · exact hm
    · split at hm <;> simp at hm
  refine ⟨fun other => ?_, fun other => ?_, fun key a hk => ?_, fun a s hm => ?_,
    fun key a s hk hm => ?_⟩
  · rw [ht, NameMap.contains_insert, h.contains, Introduction.origins_append]
    by_cases he : name = other <;> simp [he]
  · rw [Introduction.origins_append]
    by_cases he : name = other
    · rw [← he, hnew, if_pos rfl]
      show [Origin.header] ∈ lawful
      decide
    · rw [if_neg he, List.append_nil]
      exact h.allowed other
  · rw [ht, NameMap.get?_insert] at hk
    split at hk
    · next he => exact he ▸ (hd a (Option.some.inj hk)).1
    · exact h.named key a hk
  · rw [ht]
    exact NameMap.contains_insert.2 (.inr (h.owned a s (hs _ hm)))
  · rw [ht, NameMap.get?_insert] at hk
    split at hk
    · -- An action that comes now has had no sections before it came.
      have hown := h.owned a s (hs _ hm)
      rw [(hd a (Option.some.inj hk)).1] at hown
      exact absurd hown hc
    · exact h.opened key a s hk (hs _ hm)

theorem Recorded.section {key : String} {a : Action} {s : Section} {d : Definition}
    (h : Recorded c seen) (hk : c.types.get? key = some (.action a)) (hs : a.type? s = none)
    (hd : ∀ a, d ≠ .action a)
    (ht : c'.types = (c.types.insert key
      (.action (a.setType s (Compile.sectionTypeName a s)))).insert
        (Compile.sectionTypeName a s) d) :
    Recorded c' (seen ++ [⟨Compile.sectionTypeName a s, .section⟩]) := by
  have hkey : a.name = key := h.named key a hk
  have hcontains : c.types.contains key = true := by
    rw [NameMap.contains, hk]
    rfl
  have hset : (a.setType s (Compile.sectionTypeName a s)).name = a.name := by
    cases s <;> rfl
  -- An action of the new model is one of the old, up to the section that is opened.
  have hget : ∀ other b, c'.types.get? other = some (.action b) →
      ∃ b', c.types.get? other = some (.action b') ∧ b.name = b'.name
        ∧ ∀ t, b.type? t = if other = key ∧ s = t then some (Compile.sectionTypeName a s)
          else b'.type? t := by
    intro other b hb
    rw [ht, NameMap.get?_insert] at hb
    split at hb
    · exact absurd (Option.some.inj hb) (hd b)
    · rw [NameMap.get?_insert] at hb
      split at hb
      · next he =>
        cases hb
        refine ⟨a, he ▸ hk, hset, fun t => ?_⟩
        rw [Action.type?_setType]
        simp [he]
      · next he => exact ⟨b, hb, rfl, fun t => (if_neg fun hc => he hc.1.symm).symm⟩
  have hmem : ∀ (b : Action) t, .section ∈ origins (seen ++ [⟨Compile.sectionTypeName a s,
      .section⟩]) (Compile.sectionTypeName b t) →
      .section ∈ origins seen (Compile.sectionTypeName b t) ∨ a.name = b.name ∧ s = t := by
    intro b t hm
    rw [Introduction.origins_append, List.mem_append] at hm
    refine hm.imp id fun hm => ?_
    split at hm
    · next he => exact Compile.sectionTypeName_inj he
    · simp at hm
  refine ⟨fun other => ?_, fun other => ?_, fun other b hb => ?_, fun b t hm => ?_,
    fun other b t hb hm => ?_⟩
  · rw [ht, NameMap.contains_insert, NameMap.contains_insert, h.contains, Introduction.origins_append]
    by_cases he : Compile.sectionTypeName a s = other
    · simp [he]
    · have hke : key = other → origins seen other ≠ [] :=
        fun he => (h.contains other).1 (he ▸ hcontains)
      simpa [he] using hke
  · rw [Introduction.origins_append]
    split
    · next he =>
      refine Introduction.lawful_append_section (h.allowed other) fun hm => ?_
      rw [← he] at hm
      exact h.opened key a s hk hm hs
    · rw [List.append_nil]
      exact h.allowed other
  · obtain ⟨b', hb', hn, -⟩ := hget other b hb
    rw [hn, h.named other b' hb']
  · rw [ht, NameMap.contains_insert, NameMap.contains_insert]
    rcases hmem b t hm with hm | ⟨hn, -⟩
    · exact .inr (.inr (h.owned b t hm))
    · exact .inr (.inl (hkey.symm.trans hn))
  · obtain ⟨b', hb', hn, htype⟩ := hget other b hb
    rw [htype]
    split
    · simp
    · next hne =>
      rcases hmem b t hm with hm | ⟨hab, hst⟩
      · rw [Compile.sectionTypeName, hn] at hm
        exact h.opened other b' t hb' hm
      · refine absurd ⟨?_, hst⟩ hne
        rw [← h.named other b' hb', ← hn, ← hab, hkey]

/-- A line that reports nothing keeps the record. -/
theorem Recorded.effect {i : Option Introduction} (h : Recorded c seen)
    (he : Compile.Effect pos c k i c') (hl : c'.log = []) : Recorded c' (seen ++ i.toList) := by
  have hr : ¬Compile.Reports pos c c' := Compile.not_reports hl
  cases he with
  | same ht =>
    rw [Option.toList_none, List.append_nil]
    exact h.of_same (fun name => by rw [ht]) fun key a hk => ⟨a, ht ▸ hk, rfl, fun _ => rfl⟩
  | adds hd ha ht =>
    rw [Option.toList_none, List.append_nil]
    exact h.adds hd ha ht
  | header hrep hd ht => exact h.header (fun hc => hr (hrep hc)) hd ht
  | «section» hb hk hrep hd ht => exact h.section hk (not_not.1 fun hs => hr (hrep hs)) hd ht

theorem suffix_log_readLogical {file : String} {lines : List (Nat × List Char)} :
    c.log <:+ (c.readLogical file lines k).1.log :=
  readLogical_induct (P := fun c' => c.log <:+ c'.log)
    (fun _ _ _ _ h => h.trans Compile.suffix_log_step) List.suffix_rfl

/-- Lines that report nothing keep the record. -/
theorem recorded_readLogical {file : String} {lines : List (Nat × List Char)}
    (h : Recorded c seen) (hl : (c.readLogical file lines k).1.log = []) :
    Recorded (c.readLogical file lines k).1 (seen ++ introductions file lines c k) := by
  induction lines generalizing c k seen with
  | nil =>
    rw [introductions, List.append_nil]
    exact h
  | cons line lines ih =>
    obtain ⟨n, text⟩ := line
    have hstep : (Compile.step ⟨file, n⟩ text c k).1.log = [] := by
      refine List.suffix_nil.1 ?_
      rw [← hl]
      exact suffix_log_readLogical (k := (Compile.step ⟨file, n⟩ text c k).2)
    rw [introductions, ← List.append_assoc]
    exact ih (h.effect Compile.effect_step hstep) hl

end Compilation

open Introduction (origins lawful)

/-- The names that the lines of a schema introduce. -/
def introductionsOf (text : String) : List Introduction :=
  Compilation.introductions "" (Source.logicalLines (Text.lines text.toList)) {} {}

/-- What compiles has been read without a diagnostic. -/
theorem recorded_of_compile {text : String} {types : Types} (h : compile text = .ok types) :
    ∃ c : Compilation, c.types = types ∧ c.Recorded (introductionsOf text) := by
  obtain ⟨rfl, -, hlog⟩ := compile_eq_ok_iff.1 h
  exact ⟨_, rfl, Compilation.recorded_readLogical Compilation.recorded_empty hlog⟩

/-- A line keeps a definition or reports its loss, unless it opens a section whose type has the
name of the definition, which is never reported.  So in what compiles every name has been
introduced by one line, or by a header and then a section. -/
theorem lost_only_to_sections (pos : Position) (line : List Char) (c : Compilation) (k : Cursor)
    (name text : String) :
    (∀ d, c.types.get? name = some d → ¬Compile.OpensSection c k line name →
        (∃ d', (Compile.step pos line c k).1.types.get? name = some d' ∧ d'.Extends d)
          ∨ Compile.Reports pos c (Compile.step pos line c k).1)
      ∧ (Compile.OpensSection c k line name →
        ¬Compile.Reports pos c (Compile.step pos line c k).1)
      ∧ ∀ types, compile text = .ok types →
        (types.contains name = true ↔ origins (introductionsOf text) name ≠ [])
          ∧ origins (introductionsOf text) name ∈ lawful := by
  refine ⟨fun d hd hno => ?_, Compile.OpensSection.not_reports, fun types h => ?_⟩
  · rcases Compile.effect_step.kept_or_reported hd with hk | hr | ⟨key, a, s, hb, hk, hs, hn, hi⟩
    · exact .inl hk
    · exact .inr hr
    · obtain ⟨parsed, hl, hi⟩ := Option.bind_eq_some_iff.1 hi
      obtain ⟨s', bases, a', rfl, ha', hn'⟩ := Compile.exists_of_introduced?_section hi
      have ha : k.block.action?.bind c.action? = some a := by
        rw [hb, Option.bind_some, Compile.action?_eq_some_iff, hk]
      obtain rfl : a' = a := Option.some.inj (ha'.symm.trans ha)
      obtain ⟨-, rfl⟩ := Compile.sectionTypeName_inj (hn'.trans hn.symm)
      exact absurd ⟨s', bases, a', hl, ha, hs, hn⟩ hno
  · obtain ⟨c, rfl, hr⟩ := recorded_of_compile h
    exact ⟨hr.contains name, hr.allowed name⟩

/-- A struct, and an action whose input has the name of the struct. -/
def overlaidSchema : String := "struct A_input\n int a\naction A\n input\n  int b"

/-- The state in which the section is read. -/
def beforeOverlay : Compilation × Cursor :=
  Compilation.readLogical "" [(1, "struct A_input".toList), (2, " int a".toList),
    (3, "action A".toList)] {} {}

theorem action?_beforeOverlay :
    beforeOverlay.2.block.action?.bind beforeOverlay.1.action? = some { name := "A" } := by
  decide +kernel

theorem opensSection_beforeOverlay :
    Compile.OpensSection beforeOverlay.1 beforeOverlay.2 " input".toList "A_input" :=
  ⟨.input, none, { name := "A" }, by decide +kernel, action?_beforeOverlay, rfl, by decide +kernel⟩

theorem not_opensSection_beforeOverlay :
    ¬Compile.OpensSection beforeOverlay.1 beforeOverlay.2 " input".toList "A" := by
  rintro ⟨s, bases, a, -, ha, -, hn⟩
  rw [action?_beforeOverlay] at ha
  cases ha
  cases s <;> exact absurd hn (by decide +kernel)

/-- The section loses the struct and keeps the action, and the text compiles. -/
theorem lost_only_to_sections_overlaid :
    (Compile.OpensSection beforeOverlay.1 beforeOverlay.2 " input".toList "A_input"
        ∧ ¬Compile.Reports ⟨"", 4⟩ beforeOverlay.1
          (Compile.step ⟨"", 4⟩ " input".toList beforeOverlay.1 beforeOverlay.2).1)
      ∧ (∃ d, beforeOverlay.1.types.get? "A" = some d
        ∧ ((∃ d', (Compile.step ⟨"", 4⟩ " input".toList beforeOverlay.1
              beforeOverlay.2).1.types.get? "A" = some d' ∧ d'.Extends d)
          ∨ Compile.Reports ⟨"", 4⟩ beforeOverlay.1
            (Compile.step ⟨"", 4⟩ " input".toList beforeOverlay.1 beforeOverlay.2).1))
      ∧ ∃ types, compile overlaidSchema = .ok types ∧ types.contains "A_input" = true
        ∧ origins (introductionsOf overlaidSchema) "A_input" ≠ []
        ∧ origins (introductionsOf overlaidSchema) "A_input" ∈ lawful := by
  obtain ⟨-, hlost, hrun⟩ := lost_only_to_sections ⟨"", 4⟩ " input".toList beforeOverlay.1
    beforeOverlay.2 "A_input" overlaidSchema
  obtain ⟨hkept, -, -⟩ := lost_only_to_sections ⟨"", 4⟩ " input".toList beforeOverlay.1
    beforeOverlay.2 "A" overlaidSchema
  have hA : beforeOverlay.1.types.get? "A" = some (.action { name := "A" }) :=
    Compile.action?_eq_some_iff.1 (by decide +kernel)
  obtain ⟨types, hc, h⟩ := exists_ok_of_any (x := compile overlaidSchema)
    (p := fun types => types.contains "A_input") (by decide +kernel)
  obtain ⟨hi, hl⟩ := hrun types hc
  exact ⟨⟨opensSection_beforeOverlay, hlost opensSection_beforeOverlay⟩,
    ⟨_, hA, hkept _ hA not_opensSection_beforeOverlay⟩, types, hc, h, hi.1 h, hl⟩

/-- The section takes the place of the struct, whose member is gone, and nothing is reported. -/
theorem exists_silent_replacement : ∃ types s, compile overlaidSchema = .ok types
    ∧ origins (introductionsOf overlaidSchema) "A_input" = [.header, .section]
    ∧ types.get? "A_input" = some (.struct s)
    ∧ (s.members.getD []).map Member.name = ["b"] := by
  obtain ⟨types, hc, h⟩ := exists_ok_of_any (x := compile overlaidSchema)
    (p := fun types => ((types.get? "A_input").bind Definition.struct?).any fun s =>
      (s.members.getD []).map Member.name == ["b"]) (by decide +kernel)
  obtain ⟨s, hs, hb⟩ := (Option.any_eq_true _ _).1 h
  obtain ⟨d, hd, hs⟩ := Option.bind_eq_some_iff.1 hs
  obtain rfl := Definition.eq_of_struct? hs
  exact ⟨types, s, hc, by decide +kernel, hd, beq_iff_eq.1 hb⟩

end SchemaLang
