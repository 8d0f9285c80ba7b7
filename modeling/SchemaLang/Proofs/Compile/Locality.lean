import Mathlib.Data.Set.Defs
import Mathlib.Logic.Relation
import SchemaLang.Proofs.Compile.Introductions
import SchemaLang.Proofs.Source.Meaning

/-!
# What the lines of an input change

A line changes the definitions of the block that it stands in and the one that it introduces, and
the positions of what belongs to these.  All of them are names that the same input has introduced,
so an input leaves everything else in a compilation as it was.

* `Compile.settled_step`: a block is open on definitions that give themselves the names they stand
  under, and these names have no point in them.
* `Compile.edits_step`, `Compilation.edits_readLogical`: what a line does, and what all lines do,
  is a run of edits of the names that they introduce.
* `Edits.get?_types`, `Edits.get?_positions`: edits leave other names, and what belongs to them.
-/

namespace SchemaLang

/-! ## Names without a point -/

/-- A name that ends where the first point of a key stands. -/
def Pointless (name : String) : Prop := '.' ∉ name.toList

/-- The keys of positions that belong to names: their own and those of their items. -/
def Owned (names : Set String) (key : String) : Prop :=
  ∃ name ∈ names, key = name ∨ ∃ item, key = name ++ "." ++ item

theorem owned_of_mem {names : Set String} {name : String} (h : name ∈ names) : Owned names name :=
  ⟨name, h, .inl rfl⟩

theorem owned_item {names : Set String} {name : String} (h : name ∈ names) (item : String) :
    Owned names (name ++ "." ++ item) :=
  ⟨name, h, .inr ⟨item, rfl⟩⟩

/-- A key belongs to one name at most: to what stands before its first point. -/
theorem Pointless.takeWhile {name key : String} (h : Pointless name)
    (hk : key = name ∨ ∃ item, key = name ++ "." ++ item) :
    key.toList.takeWhile (· != '.') = name.toList := by
  have hall : ∀ c ∈ name.toList, (c != '.') = true := fun c hc =>
    bne_iff_ne.2 fun he => h (he ▸ hc)
  rcases hk with rfl | ⟨item, rfl⟩
  · exact List.takeWhile_eq_self_iff.2 hall
  · rw [String.append_assoc, String.toList_append, List.takeWhile_append_of_pos hall,
      String.toList_append]
    simp

theorem not_owned_of_disjoint {names others : Set String} {key : String}
    (hn : ∀ name ∈ names, Pointless name) (ho : ∀ name ∈ others, Pointless name)
    (hd : ∀ name ∈ names, name ∉ others) (hk : Owned names key) : ¬Owned others key := by
  rintro ⟨other, hother, hkey⟩
  obtain ⟨name, hname, hkey'⟩ := hk
  have he := ((hn name hname).takeWhile hkey').symm.trans ((ho other hother).takeWhile hkey)
  exact hd name hname (String.toList_inj.1 he ▸ hother)

theorem pointless_of_name? {cs rest : List Char} {name : String}
    (h : Source.name? cs = some (name, rest)) : Pointless name := by
  obtain ⟨first, tail, part, -, hfirst, hrun, rfl⟩ := Source.name?_eq_some_iff.1 h
  rw [Pointless, String.toList_ofList, List.mem_cons]
  rintro (rfl | hm)
  · exact absurd hfirst (by decide)
  · exact absurd (hrun.all _ hm) (by decide)

theorem pointless_sectionTypeName {a : Action} (h : Pointless a.name) (s : Section) :
    Pointless (Compile.sectionTypeName a s) := by
  have hs : '.' ∉ s.name.toList := by cases s <;> decide
  rw [Compile.sectionTypeName, Pointless, String.toList_append, String.toList_append,
    List.mem_append, List.mem_append]
  exact not_or.2 ⟨not_or.2 ⟨h, by decide⟩, hs⟩

namespace Source.Line

/-- The name that a line puts a definition under has no point in it. -/
def Pointless : Line → Prop
  | .action name => SchemaLang.Pointless name
  | .definition _ name _ => SchemaLang.Pointless name
  | .typedef name _ => SchemaLang.Pointless name
  | _ => True

theorem pointless_typed? {cs rest : List Char} {name : String} {type : TypeExpr}
    (h : typed? cs = some ((type, name), rest)) : SchemaLang.Pointless name := by
  simp only [typed?, Option.bind_eq_bind, Option.bind_eq_some_iff] at h
  obtain ⟨_, -, _, -, _, hn, he⟩ := h
  obtain rfl := congrArg (fun p => p.1.2) (Option.some.inj he)
  exact pointless_of_name? hn

theorem pointless_parse? {place : Place} {cs : List Char} {line : Line}
    (h : parse? place cs = some line) : line.Pointless := by
  cases parsed_of_parse? h with
  | action hn => exact pointless_of_name? hn
  | definition kind hn hb => exact pointless_of_name? hn
  | typedef ht => exact pointless_typed? ht
  | _ => trivial

end Source.Line

/-! ## Edits -/

/-- One change of a compilation by an input that introduces these names. -/
inductive Edit (names : Set String) (file : String) (c : Compilation) : Compilation → Prop
  | report (n : Nat) (fault : Fault) : Edit names file c (c.report ⟨file, n⟩ fault)
  | put {d : Definition} (h : d.name ∈ names) : Edit names file c (c.update d.name d)
  | mark (n : Nat) {key : String} (h : Owned names key) :
      Edit names file c { c with positions := c.positions.insert key ⟨file, n⟩ }

def Edits (names : Set String) (file : String) : Compilation → Compilation → Prop :=
  Relation.ReflTransGen (Edit names file)

/-- What stands under a name gives itself this name. -/
def Named (types : Types) (name : String) : Prop := ∀ d, types.get? name = some d → d.name = name

theorem Named.insert {types : Types} {name : String} {d : Definition} (h : Named types name) :
    Named (types.insert d.name d) name := by
  intro d' hd'
  rw [NameMap.get?_insert] at hd'
  split at hd'
  · next he => rwa [← Option.some.inj hd']
  · exact h d' hd'

theorem named_insert_self {types : Types} {name : String} {d : Definition} (h : d.name = name) :
    Named (types.insert name d) name := by
  intro d' hd'
  rw [NameMap.get?_insert, if_pos rfl] at hd'
  rwa [← Option.some.inj hd']

namespace Edits

variable {names : Set String} {file : String} {pos : Position} {c c' : Compilation}

theorem refl (names : Set String) (file : String) (c : Compilation) : Edits names file c c :=
  Relation.ReflTransGen.refl

theorem report (h : Edits names pos.file c c') (fault : Fault) :
    Edits names pos.file c (c'.report pos fault) :=
  Relation.ReflTransGen.tail h (.report pos.line fault)

theorem reportIf (h : Edits names pos.file c c') (b : Bool) (fault : Fault) :
    Edits names pos.file c (c'.reportIf b pos fault) := by
  cases b with
  | false => exact h
  | true => exact h.report fault

theorem update {name : String} {d : Definition} (h : Edits names file c c') (hn : name ∈ names)
    (hd : d.name = name) : Edits names file c (c'.update name d) := by
  subst hd
  exact Relation.ReflTransGen.tail h (.put hn)

theorem define {name : String} {d : Definition} (h : Edits names pos.file c c')
    (hn : name ∈ names) (hd : d.name = name) : Edits names pos.file c (c'.define pos name d) :=
  Relation.ReflTransGen.tail (h.update hn hd) (.mark pos.line (owned_of_mem hn))

theorem locate {owner : String} (h : Edits names pos.file c c') (hn : owner ∈ names)
    (item : String) : Edits names pos.file c (c'.locate pos owner item) :=
  Relation.ReflTransGen.tail h (.mark pos.line (owned_item hn item))

/-- Edits put definitions only under the names that these give themselves. -/
theorem named {name : String} (h : Edits names file c c') (hn : Named c.types name) :
    Named c'.types name := by
  induction h with
  | refl => exact hn
  | tail _ he ih =>
    cases he with
    | report n fault => exact ih
    | put h => exact ih.insert
    | mark n h => exact ih

theorem get?_types {name : String} (h : Edits names file c c') (hn : name ∉ names) :
    c'.types.get? name = c.types.get? name := by
  induction h with
  | refl => rfl
  | tail _ he ih =>
    cases he with
    | report n fault => exact ih
    | put h =>
      rw [Compilation.types_update, NameMap.get?_insert, if_neg, ih]
      rintro rfl
      exact hn h
    | mark n h => exact ih

theorem get?_positions {key : String} (h : Edits names file c c') (hk : ¬Owned names key) :
    c'.positions.get? key = c.positions.get? key := by
  induction h with
  | refl => rfl
  | tail _ he ih =>
    cases he with
    | report n fault => exact ih
    | put h => exact ih
    | mark n h =>
      rw [NameMap.get?_insert, if_neg, ih]
      rintro rfl
      exact hk h

/-- What edits report is in the file. -/
theorem log (h : Edits names file c c') :
    ∃ new, c'.log = new ++ c.log ∧ ∀ d ∈ new, d.position.file = file := by
  induction h with
  | refl => exact ⟨[], rfl, by simp⟩
  | tail _ he ih =>
    obtain ⟨new, hlog, hfile⟩ := ih
    cases he with
    | report n fault =>
      refine ⟨⟨⟨file, n⟩, fault.message⟩ :: new, congrArg _ hlog, fun d hd => ?_⟩
      rcases List.mem_cons.1 hd with rfl | hd
      · rfl
      · exact hfile d hd
    | put h => exact ⟨new, hlog, hfile⟩
    | mark n h => exact ⟨new, hlog, hfile⟩

theorem file_of_positions {key : String} {p : Position} (h : Edits names file c c')
    (hp : c'.positions.get? key = some p) : c.positions.get? key = some p ∨ p.file = file := by
  induction h with
  | refl => exact .inl hp
  | tail _ he ih =>
    cases he with
    | report n fault => exact ih hp
    | put h => exact ih hp
    | mark n h =>
      rw [NameMap.get?_insert] at hp
      split at hp
      · exact .inr (Option.some.inj hp ▸ rfl)
      · exact ih hp

end Edits

/-! ## Lines as edits -/

/-- The names of what is being defined. -/
def Block.names : Block → List String
  | .outside => []
  | .type name => [name]
  | .action a => [a]
  | .section a name => [a, name]
  | .urls a _ => [a]

theorem Block.mem_names_of_action? {b : Block} {name : String} (h : b.action? = some name) :
    name ∈ b.names := by
  cases b <;> simp_all [Block.action?, Block.names]

theorem Block.mem_names_of_type? {b : Block} {name : String} (h : b.type? = some name) :
    name ∈ b.names := by
  cases b <;> simp_all [Block.type?, Block.names]

namespace Compile

open Source (Line DefinitionKind)

/-- The block is open on names of the input, without a point, under which stand definitions that
give themselves these names. -/
def Settled (names : Set String) (c : Compilation) (k : Cursor) : Prop :=
  ∀ name ∈ k.block.names, name ∈ names ∧ Pointless name ∧ Named c.types name

variable {names : Set String} {pos : Position} {c : Compilation} {k : Cursor}

theorem settled_outside {k : Cursor} (h : k.block = .outside) : Settled names c k := by
  intro name hn
  rw [h, Block.names] at hn
  exact absurd hn List.not_mem_nil

theorem introduced?_section {key : String} {a : Action} {s : Section}
    {bases : Option (List String)} (hb : k.block.action? = some key)
    (ha : c.action? key = some a) :
    introduced? c k (.section s bases) = some ⟨sectionTypeName a s, .section⟩ := by
  rw [introduced?, hb, Option.bind_some, ha]
  rfl

/-- What a section is added to gives itself the name that it stands under. -/
theorem Settled.action {key : String} {a : Action} (hk : Settled names c k)
    (hb : k.block.action? = some key) (ha : c.action? key = some a) :
    a.name = key ∧ key ∈ names ∧ Pointless key := by
  obtain ⟨hin, hp, hn⟩ := hk key (Block.mem_names_of_action? hb)
  exact ⟨hn _ (action?_eq_some_iff.1 ha), hin, hp⟩

/-- What an item is added to gives itself the name that it stands under. -/
theorem Settled.type {α : Type} {kind? : Definition → Option α} {f : α → Definition}
    {key : String} {a : α} (hk : Settled names c k)
    (h : (k.block.type?.bind fun key => ((c.types.get? key).bind kind?).map fun a => (key, a))
      = some (key, a))
    (hf : ∀ d a, kind? d = some a → d = f a) : (f a).name = key ∧ key ∈ names := by
  obtain ⟨other, hb, hother⟩ := Option.bind_eq_some_iff.1 h
  obtain ⟨_, -, he⟩ := Option.map_eq_some_iff.1 hother
  obtain rfl : other = key := congrArg Prod.fst he
  obtain ⟨hin, -, hn⟩ := hk other (Block.mem_names_of_type? hb)
  exact ⟨hn _ (get?_of_open h hf), hin⟩

theorem edits_section {s : Section} {bases : Option (List String)} (hk : Settled names c k)
    (hi : ∀ i ∈ introduced? c k (.section s bases), i.name ∈ names) :
    Edits names pos.file c (sectionOf pos s bases c k).1 := by
  rw [sectionOf]
  split
  · exact .refl _ _ _
  · next key a h =>
    obtain ⟨hb, ha⟩ := action?_of_open h
    obtain ⟨hname, hin, -⟩ := hk.action hb ha
    have htype : sectionTypeName a s ∈ names := hi _ (introduced?_section hb ha)
    have hset : (Definition.action (a.setType s (sectionTypeName a s))).name = key :=
      (name_setType a s _).trans hname
    have hput := (Edits.refl names pos.file c).update hin hset
    exact (hput.reportIf _ _).define htype (name_sectionDefinition s _ bases)

theorem edits_urls : Edits names pos.file c (urls pos c k).1 := by
  rw [urls]
  split
  · exact .refl _ _ _
  · exact (Edits.refl _ _ _).reportIf _ _

/-- An item is added to the open definition, and its position is marked. -/
theorem edits_item {α : Type} {kind? : Definition → Option α} {f : α → Definition}
    {key : String} {a : α} {d : Definition} (hk : Settled names c k)
    (h : (k.block.type?.bind fun key => ((c.types.get? key).bind kind?).map fun a => (key, a))
      = some (key, a))
    (hf : ∀ d a, kind? d = some a → d = f a) (hd : d.name = (f a).name) (item : String) :
    Edits names pos.file c ((c.update key d).locate pos (f a).name item) := by
  obtain ⟨hname, hin⟩ := hk.type h hf
  have howner : (f a).name ∈ names := by rwa [← hname] at hin
  exact (Edits.update (.refl _ _ _) hin (hd.trans hname)).locate howner item

theorem edits_value {name : String} (hk : Settled names c k) :
    Edits names pos.file c (value pos name c k).1 := by
  rw [value]
  simp only
  split
  · exact .refl _ _ _
  · next h =>
    refine edits_item (f := .enum) hk h (fun _ _ => Definition.eq_of_enum?) ?_ name
    rfl

theorem edits_member {m : Member} (hk : Settled names c k) :
    Edits names pos.file c (member pos m c k).1 := by
  rw [member]
  simp only
  split
  · exact .refl _ _ _
  · next h =>
    refine edits_item (f := .struct) hk h (fun _ _ => Definition.eq_of_struct?) ?_ m.name
    rfl

theorem edits_url {method : String} {path : Option String} (hk : Settled names c k) :
    Edits names pos.file c (url pos method path c k).1 := by
  rw [url]
  split
  · next key listed hb =>
    have hreport := (Edits.refl names pos.file c).reportIf
      (listed.contains { method := if method = "*" then none else some method, path })
      (.duplicateUrl method path)
    simp only
    split
    · exact hreport
    · next a ha =>
      have ha : c.action? key = some a := by
        rw [action?_eq_some_iff] at ha ⊢
        rwa [Compilation.types_reportIf] at ha
      obtain ⟨hname, hin, -⟩ := hk.action (by rw [hb]; rfl) ha
      exact hreport.update hin hname
  · exact .refl _ _ _

/-- A line edits the names of its block and the one that it introduces. -/
theorem edits_apply {line : Line} (hk : Settled names c k)
    (hi : ∀ i ∈ introduced? c k line, i.name ∈ names) :
    Edits names pos.file c (apply pos line c k).1 := by
  have hrefl := Edits.refl names pos.file c
  cases line with
  | comment doc => exact hrefl
  | group name => exact hrefl
  | action name => exact (hrefl.reportIf _ _).define (hi _ rfl) rfl
  | definition kind name bases =>
    exact (hrefl.reportIf _ _).define (hi _ rfl) (name_newDefinition kind name bases)
  | «section» s bases => exact edits_section hk hi
  | urls => exact edits_urls
  | value name => exact edits_value hk
  | member optional name expr =>
    rw [apply]
    split
    · exact hrefl.report _
    · exact edits_member hk
  | url method path => exact edits_url hk
  | typedef name expr =>
    rw [apply]
    split
    · exact hrefl.report _
    · next he =>
      refine (hrefl.reportIf _ _).define (hi ⟨name, .header⟩ ?_) rfl
      rw [introduced?, he]
      rfl

theorem edits_step (pos : Position) {text : List Char} (hk : Settled names c k)
    (hi : ∀ i ∈ (Line.parse? (k.place c) text).bind (introduced? c k), i.name ∈ names) :
    Edits names pos.file c (step pos text c k).1 := by
  rw [step]
  split
  · exact (Edits.refl _ _ _).report _
  · next line h => exact edits_apply hk fun i hm => hi i (by rwa [h])

/-! ## The block that is open -/

/-- What is introduced has no point in it and gives itself its name. -/
theorem named_introduced (pos : Position) {line : Line} {i : Introduction}
    (hk : Settled names c k) (hl : line.Pointless) (hi : i ∈ introduced? c k line) :
    Pointless i.name ∧ Named (apply pos line c k).1.types i.name := by
  cases line with
  | action name =>
    obtain rfl := Option.some.inj hi
    exact ⟨hl, named_insert_self rfl⟩
  | definition kind name bases =>
    obtain rfl := Option.some.inj hi
    exact ⟨hl, named_insert_self (name_newDefinition kind name bases)⟩
  | «section» s bases =>
    obtain ⟨a, ha, rfl⟩ := Option.map_eq_some_iff.1 hi
    obtain ⟨key, hb, ha⟩ := Option.bind_eq_some_iff.1 ha
    obtain ⟨hname, -, hp⟩ := hk.action hb ha
    refine ⟨pointless_sectionTypeName (hname ▸ hp) s, ?_⟩
    rw [apply, sectionOf, hb, Option.bind_some, ha]
    exact named_insert_self (name_sectionDefinition s _ bases)
  | typedef name expr =>
    obtain ⟨ty, hty, rfl⟩ := Option.map_eq_some_iff.1 hi
    refine ⟨hl, ?_⟩
    rw [apply]
    split
    · next he => simp [he, Except.toOption] at hty
    · exact named_insert_self rfl
  | _ => simp [introduced?] at hi

/-- A block is open on names that it has been open on and on what has been introduced. -/
theorem mem_names_apply {line : Line} {name : String}
    (h : name ∈ (apply pos line c k).2.block.names) :
    name ∈ k.block.names ∨ ∃ i ∈ introduced? c k line, i.name = name := by
  cases line with
  | comment doc => cases doc <;> exact .inl h
  | group _ => exact .inl h
  | action other =>
    have he : name = other := List.mem_singleton.1 h
    exact .inr ⟨_, rfl, he.symm⟩
  | definition _ other _ =>
    have he : name = other := List.mem_singleton.1 h
    exact .inr ⟨_, rfl, he.symm⟩
  | «section» s bases =>
    rw [apply, sectionOf] at h
    split at h
    · exact .inl h
    · next key a ha =>
      obtain ⟨hb, ha⟩ := action?_of_open ha
      have h : name ∈ [key, sectionTypeName a s] := h
      rcases List.mem_pair.1 h with rfl | rfl
      · exact .inl (Block.mem_names_of_action? hb)
      · exact .inr ⟨_, introduced?_section hb ha, rfl⟩
  | urls =>
    rw [apply, urls] at h
    split at h
    · exact .inl h
    · next key hb =>
      obtain rfl : name = key := List.mem_singleton.1 h
      exact .inl (Block.mem_names_of_action? hb)
  | value _ => exact .inl h
  | member optional _ expr =>
    rw [apply] at h
    split at h <;> exact .inl h
  | url method path =>
    rw [apply, url] at h
    split at h
    · next key listed hb =>
      obtain rfl : name = key := List.mem_singleton.1 h
      exact .inl (Block.mem_names_of_action? (by rw [hb]; rfl))
    · exact .inl h
  | typedef _ expr =>
    rw [apply] at h
    split at h
    · exact .inl h
    · have h : name ∈ [] := h
      exact absurd h List.not_mem_nil

theorem settled_apply {line : Line} (hk : Settled names c k) (hl : line.Pointless)
    (hi : ∀ i ∈ introduced? c k line, i.name ∈ names) :
    Settled names (apply pos line c k).1 (apply pos line c k).2 := by
  intro name h
  rcases mem_names_apply h with hold | ⟨i, hm, rfl⟩
  · obtain ⟨hin, hp, hn⟩ := hk name hold
    exact ⟨hin, hp, (edits_apply hk hi).named hn⟩
  · exact ⟨hi i hm, named_introduced pos hk hl hm⟩

theorem settled_step (pos : Position) {text : List Char} (hk : Settled names c k)
    (hi : ∀ i ∈ (Line.parse? (k.place c) text).bind (introduced? c k), i.name ∈ names) :
    Settled names (step pos text c k).1 (step pos text c k).2 := by
  rw [step]
  split
  · exact hk
  · next line h =>
    exact settled_apply hk (Line.pointless_parse? h) fun i hm => hi i (by rwa [h])

end Compile

/-! ## Whole inputs -/

namespace Compilation

variable {names : Set String} {file : String} {c : Compilation} {k : Cursor}

theorem edits_readLogical {lines : List (Nat × List Char)} (hk : Compile.Settled names c k)
    (hi : ∀ i ∈ introductions file lines c k, i.name ∈ names) :
    Edits names file c (c.readLogical file lines k).1 := by
  induction lines generalizing c k with
  | nil => exact .refl _ _ _
  | cons line lines ih =>
    obtain ⟨n, text⟩ := line
    rw [introductions, List.forall_mem_append] at hi
    have hstep := fun i hm => hi.1 i (Option.mem_toList.2 hm)
    exact (Compile.edits_step ⟨file, n⟩ hk hstep).trans
      (ih (Compile.settled_step ⟨file, n⟩ hk hstep) hi.2)

/-- What an input introduces has no point in it. -/
theorem pointless_introductions {lines : List (Nat × List Char)}
    (hk : Compile.Settled names c k) (hi : ∀ i ∈ introductions file lines c k, i.name ∈ names) :
    ∀ i ∈ introductions file lines c k, Pointless i.name := by
  induction lines generalizing c k with
  | nil => simp [introductions]
  | cons line lines ih =>
    obtain ⟨n, text⟩ := line
    rw [introductions, List.forall_mem_append] at hi ⊢
    have hstep := fun i hm => hi.1 i (Option.mem_toList.2 hm)
    refine ⟨fun i hm => ?_, ih (Compile.settled_step ⟨file, n⟩ hk hstep) hi.2⟩
    obtain ⟨line, hl, hm⟩ := Option.bind_eq_some_iff.1 (Option.mem_toList.1 hm)
    exact (Compile.named_introduced ⟨file, n⟩ hk (Source.Line.pointless_parse? hl) hm).1

end Compilation

end SchemaLang
