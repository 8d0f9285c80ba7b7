import SchemaLang.Proofs.Compile.Locality

/-!
# Compilations that are read into side by side

A line looks only at what stands under the names of its block and, to report it, at whether the name
that it introduces is in use.  So an input introduces the same names whatever has been defined
before, and where two compilations agree on these names it does the same in both, also where it is
said to stand in another file and at other lines.

* `Compile.beside_step`, `Compilation.beside_readLogical`: two compilations that agree on the names
  of the block agree on these and on what is introduced, line after line.
* `Compilation.introductions_eq`: what an input introduces does not depend on the compilation.
* `Compile.log_step`, `Compilation.log_readLogical`: what is reported of a line, and that it is the
  same in both.
-/

namespace SchemaLang

/-- Two compilations that agree on names and on the positions under keys, where `move` takes the
positions of the first to those of the second. -/
structure Alike (names keys : Set String) (move : Position → Position) (c c' : Compilation) :
    Prop where
  types : ∀ name ∈ names, c'.types.get? name = c.types.get? name
  positions : ∀ key ∈ keys, c'.positions.get? key = (c.positions.get? key).map move

/-- The names, and what has been introduced. -/
def Seen (names : Set String) (is : List Introduction) : Set String :=
  { name | name ∈ names ∨ ∃ i ∈ is, i.name = name }

theorem seen_nil (names : Set String) : Seen names [] = names := by
  ext name
  exact ⟨fun h => h.elim id fun ⟨_, hi, _⟩ => absurd hi List.not_mem_nil, .inl⟩

theorem seen_append (names : Set String) (is js : List Introduction) :
    Seen names (is ++ js) = Seen (Seen names is) js := by
  ext name
  simp only [Seen, Set.mem_ofPred_eq, List.mem_append, or_and_right, exists_or, or_assoc]

theorem seen_eq_self {names : Set String} {is : List Introduction}
    (h : ∀ i ∈ is, i.name ∈ names) : Seen names is = names := by
  ext name
  refine ⟨fun hs => ?_, .inl⟩
  rcases hs with hn | ⟨i, hi, rfl⟩
  · exact hn
  · exact h i hi

namespace Alike

variable {names keys : Set String} {move : Position → Position} {c c' : Compilation}
variable {pos : Position}

/-! ## What is looked up -/

theorem contains {name : String} (h : Alike names keys move c c') (hn : name ∈ names) :
    c'.types.contains name = c.types.contains name := by
  rw [NameMap.contains, h.types name hn, NameMap.contains]

theorem isTaken {name : String} (h : Alike names keys move c c') (hn : name ∈ names) :
    c'.isTaken name = c.isTaken name := by
  rw [Compilation.isTaken, h.contains hn, Compilation.isTaken]

theorem action? {name : String} (h : Alike names keys move c c') (hn : name ∈ names) :
    c'.action? name = c.action? name := by
  rw [Compilation.action?, h.types name hn, Compilation.action?]

/-! ## What is changed -/

theorem report (h : Alike names keys move c c') (pos' : Position) (fault : Fault) :
    Alike names keys move (c.report pos fault) (c'.report pos' fault) :=
  ⟨h.types, h.positions⟩

theorem seen_nil (h : Alike names keys move c c') : Alike (Seen names []) keys move c c' := by
  rwa [SchemaLang.seen_nil]

/-- What is reported need not be the same. -/
theorem reportIf (h : Alike names keys move c c') (pos : Position) (b b' : Bool)
    (pos' : Position) (fault : Fault) :
    Alike names keys move (c.reportIf b pos fault) (c'.reportIf b' pos' fault) := by
  cases b <;> cases b' <;> exact ⟨h.types, h.positions⟩

theorem update (h : Alike names keys move c c') (name : String) (d : Definition) :
    Alike names keys move (c.update name d) (c'.update name d) where
  types other hn := by
    rw [Compilation.types_update, Compilation.types_update, NameMap.get?_insert,
      NameMap.get?_insert, h.types other hn]
  positions := h.positions

theorem locate (h : Alike names keys move c c') (owner item : String) :
    Alike names keys move (c.locate pos owner item) (c'.locate (move pos) owner item) where
  types := h.types
  positions key hk := by
    rw [Compilation.locate, Compilation.locate, NameMap.get?_insert, NameMap.get?_insert,
      h.positions key hk]
    split <;> rfl

/-- What is defined in both is agreed on from then on. -/
theorem define (h : Alike names keys move c c') (i : Introduction) (d : Definition) :
    Alike (Seen names [i]) keys move (c.define pos i.name d)
      (c'.define (move pos) i.name d) where
  types other hn := by
    rw [Compilation.types_define, Compilation.types_define, NameMap.get?_insert,
      NameMap.get?_insert]
    split
    · rfl
    · next hne =>
      rcases hn with hn | ⟨j, hj, rfl⟩
      · exact h.types other hn
      · exact absurd (List.mem_singleton.1 hj ▸ rfl) hne
  positions key hk := by
    rw [Compilation.define, Compilation.define, NameMap.get?_insert, NameMap.get?_insert,
      h.positions key hk]
    split <;> rfl

end Alike

/-! ## Lines -/

namespace Compile

open Source (Line)

theorem Settled.mono {names others : Set String} {c : Compilation} {k : Cursor}
    (hk : Settled names c k) (h : ∀ name ∈ names, name ∈ others) : Settled others c k :=
  fun name hn => (hk name hn).imp_left (h name)

/-- Two compilations that have been read into, with the cursors where reading goes on. -/
def Beside (names keys : Set String) (move : Position → Position)
    (x x' : Compilation × Cursor) : Prop :=
  x'.2 = x.2 ∧ Alike names keys move x.1 x'.1

variable {names keys : Set String} {move : Position → Position}
variable {c c' : Compilation} {k : Cursor} {pos : Position}

theorem Beside.seen_nil {x x' : Compilation × Cursor} (h : Beside names keys move x x') :
    Beside (Seen names []) keys move x x' :=
  h.imp_right Alike.seen_nil

/-- The open action is looked up alike. -/
theorem bind_action?_eq {α : Type} {f : String → Action → α} (h : Alike names keys move c c')
    (hk : Settled names c k) :
    (k.block.action?.bind fun name => (c'.action? name).map (f name))
      = k.block.action?.bind fun name => (c.action? name).map (f name) := by
  cases hb : k.block.action? with
  | none => rfl
  | some name =>
    rw [Option.bind_some, Option.bind_some,
      h.action? (hk name (Block.mem_names_of_action? hb)).1]

/-- The open definition is looked up alike. -/
theorem bind_type?_eq {α : Type} {f : String → Option Definition → Option α}
    (h : Alike names keys move c c') (hk : Settled names c k) :
    (k.block.type?.bind fun name => f name (c'.types.get? name))
      = k.block.type?.bind fun name => f name (c.types.get? name) := by
  cases hb : k.block.type? with
  | none => rfl
  | some name =>
    rw [Option.bind_some, Option.bind_some,
      h.types name (hk name (Block.mem_names_of_type? hb)).1]

theorem place_eq (h : Alike names keys move c c') (hk : Settled names c k) :
    k.place c' = k.place c := by
  have hlook := bind_type?_eq (f := fun _ d => d) h hk
  rw [Cursor.place, hlook, Cursor.place]

theorem open_action_eq (h : Alike names keys move c c') (hk : Settled names c k) :
    k.block.action?.bind c'.action? = k.block.action?.bind c.action? := by
  cases hb : k.block.action? with
  | none => rfl
  | some name => exact h.action? (hk name (Block.mem_names_of_action? hb)).1

theorem introduced?_eq (h : Alike names keys move c c') (hk : Settled names c k) :
    introduced? c' k = introduced? c k := by
  funext line
  cases line with
  | «section» s bases => rw [introduced?, open_action_eq h hk, introduced?]
  | _ => rfl

theorem beside_section {s : Section} {bases : Option (List String)}
    (h : Alike names keys move c c') (hk : Settled names c k) :
    Beside (Seen names (introduced? c k (.section s bases)).toList) keys move
      (sectionOf pos s bases c k) (sectionOf (move pos) s bases c' k) := by
  rw [sectionOf, sectionOf, bind_action?_eq h hk, introduced?]
  cases k.block.action? with
  | none => exact ⟨rfl, h.seen_nil⟩
  | some key =>
    rw [Option.bind_some, Option.bind_some]
    cases c.action? key with
    | none => exact ⟨rfl, h.seen_nil⟩
    | some a =>
      exact ⟨rfl, ((h.update _ _).reportIf _ _ _ _ _).define ⟨sectionTypeName a s, .section⟩ _⟩

theorem beside_urls (h : Alike names keys move c c') :
    Beside names keys move (urls pos c k) (urls (move pos) c' k) := by
  rw [urls, urls]
  split
  · exact ⟨rfl, h⟩
  · exact ⟨rfl, h.reportIf _ _ _ _ _⟩

theorem beside_value {name : String} (h : Alike names keys move c c') (hk : Settled names c k) :
    Beside names keys move (value pos name c k) (value (move pos) name c' k) := by
  rw [value, value]
  refine ⟨rfl, ?_⟩
  simp only
  rw [bind_type?_eq (f := fun key d => (d.bind Definition.enum?).map fun e => (key, e)) h hk]
  split
  · exact h
  · exact (h.update _ _).locate _ _

theorem beside_member {m : Member} (h : Alike names keys move c c') (hk : Settled names c k) :
    Beside names keys move (member pos m c k) (member (move pos) m c' k) := by
  rw [member, member]
  refine ⟨rfl, ?_⟩
  simp only
  rw [bind_type?_eq (f := fun key d => (d.bind Definition.struct?).map fun s => (key, s)) h hk]
  split
  · exact h
  · exact (h.update _ _).locate _ _

theorem beside_url {method : String} {path : Option String} (h : Alike names keys move c c')
    (hk : Settled names c k) :
    Beside names keys move (url pos method path c k) (url (move pos) method path c' k) := by
  rw [url, url]
  split
  · next key listed hb =>
    have hin : key ∈ names := (hk key (Block.mem_names_of_action? (by rw [hb]; rfl))).1
    refine ⟨rfl, ?_⟩
    simp only
    generalize listed.contains _ = b
    have hreport := h.reportIf pos b b (move pos) (.duplicateUrl method path)
    rw [hreport.action? hin]
    split
    · exact hreport
    · exact hreport.update _ _
  · exact ⟨rfl, h⟩

/-- A line does the same to what is agreed on, and what it introduces is agreed on after it. -/
theorem beside_apply {line : Line} (h : Alike names keys move c c') (hk : Settled names c k) :
    Beside (Seen names (introduced? c k line).toList) keys move (apply pos line c k)
      (apply (move pos) line c' k) := by
  cases line with
  | action name => exact ⟨rfl, (h.reportIf _ _ _ _ _).define ⟨name, .header⟩ _⟩
  | definition kind name bases => exact ⟨rfl, (h.reportIf _ _ _ _ _).define ⟨name, .header⟩ _⟩
  | «section» s bases => exact beside_section h hk
  | comment doc => exact ⟨rfl, h.seen_nil⟩
  | group name => exact ⟨rfl, h.seen_nil⟩
  | urls => exact (beside_urls h).seen_nil
  | value name => exact (beside_value h hk).seen_nil
  | member optional name expr =>
    rw [apply, apply]
    split
    · exact ⟨rfl, (h.report _ _).seen_nil⟩
    · exact (beside_member h hk).seen_nil
  | url method path => exact (beside_url h hk).seen_nil
  | typedef name expr =>
    rw [apply, apply, introduced?]
    split
    · next he =>
      rw [he]
      exact ⟨rfl, (h.report _ _).seen_nil⟩
    · next he =>
      rw [he]
      exact ⟨rfl, (h.reportIf _ _ _ _ _).define ⟨name, .header⟩ _⟩

theorem beside_step (pos : Position) (text : List Char) (h : Alike names keys move c c')
    (hk : Settled names c k) :
    Beside (Seen names ((Line.parse? (k.place c) text).bind (introduced? c k)).toList) keys move
      (step pos text c k) (step (move pos) text c' k) := by
  rw [step, step, place_eq h hk]
  split
  · next hl =>
    rw [hl]
    exact ⟨rfl, (h.report _ _).seen_nil⟩
  · next line hl =>
    rw [hl]
    exact beside_apply h hk

end Compile

/-! ## What is reported -/

namespace Compile

open Source (Line)

/-- What is wrong with a line where the cursor stands. -/
def fault? (c : Compilation) (k : Cursor) : Line → Option Fault
  | .action name => if c.types.contains name then some (.actionRedefined name) else none
  | .definition _ name _ => if c.isTaken name then some (.typeRedefined name) else none
  | .section s _ =>
    (k.block.action?.bind c.action?).bind fun a =>
      if (a.type? s).isSome then some (.sectionRedefined s) else none
  | .urls =>
    (k.block.action?.bind c.action?).bind fun a =>
      if a.urls.isSome then some .urlsRedefined else none
  | .member _ _ expr =>
    match expr.type? with
    | .error digits => some (.attributeValue digits)
    | .ok _ => none
  | .url method path =>
    match k.block with
    | .urls _ listed =>
      if listed.contains { method := if method = "*" then none else some method, path } then
        some (.duplicateUrl method path)
      else none
    | _ => none
  | .typedef name expr =>
    match expr.type? with
    | .error digits => some (.attributeValue digits)
    | .ok _ => if c.isTaken name then some (.typeRedefined name) else none
  | _ => none

/-- What is wrong with a text where the cursor stands. -/
def faultOf? (c : Compilation) (k : Cursor) (text : List Char) : Option Fault :=
  match Line.parse? (k.place c) text with
  | none => some .unreadable
  | some line => fault? c k line

/-- The diagnostic at a position, if something is wrong there. -/
def diagnosed (pos : Position) (fault : Option Fault) : List Diagnostic :=
  (fault.map fun f => ⟨pos, f.message⟩).toList

variable {c : Compilation} {k : Cursor} {pos : Position}

theorem log_reportIf_append (b : Bool) (fault : Fault) :
    (c.reportIf b pos fault).log = diagnosed pos (if b then some fault else none) ++ c.log := by
  cases b <;> rfl

theorem log_section {s : Section} {bases : Option (List String)} :
    (sectionOf pos s bases c k).1.log
      = diagnosed pos (fault? c k (.section s bases)) ++ c.log := by
  rw [sectionOf, fault?]
  cases k.block.action? with
  | none => rfl
  | some key =>
    rw [Option.bind_some, Option.bind_some]
    cases c.action? key with
    | none => rfl
    | some a => exact log_reportIf_append (c := c.update key _) _ _

theorem log_urls : (urls pos c k).1.log = diagnosed pos (fault? c k .urls) ++ c.log := by
  rw [urls, fault?]
  cases k.block.action? with
  | none => rfl
  | some key =>
    rw [Option.bind_some, log_reportIf_append]
    cases c.action? key <;> rfl

theorem log_url {method : String} {path : Option String} :
    (url pos method path c k).1.log
      = diagnosed pos (fault? c k (.url method path)) ++ c.log := by
  rw [url, fault?]
  cases k.block with
  | urls key listed =>
    simp only
    split <;> exact log_reportIf_append _ _
  | _ => rfl

/-- A line adds at most one diagnostic. -/
theorem log_apply {line : Line} :
    (apply pos line c k).1.log = diagnosed pos (fault? c k line) ++ c.log := by
  cases line with
  | comment doc => rfl
  | group name => rfl
  | action name => exact log_reportIf_append _ _
  | definition kind name bases => exact log_reportIf_append _ _
  | «section» s bases => exact log_section
  | urls => exact log_urls
  | value name =>
    rw [apply, value]
    simp only
    split <;> rfl
  | member optional name expr =>
    rw [apply, fault?]
    cases expr.type? with
    | error digits => rfl
    | ok ty =>
      simp only [member]
      split <;> rfl
  | url method path => exact log_url
  | typedef name expr =>
    rw [apply, fault?]
    cases expr.type? with
    | error digits => rfl
    | ok ty => exact log_reportIf_append _ _

theorem log_step {text : List Char} :
    (step pos text c k).1.log = diagnosed pos (faultOf? c k text) ++ c.log := by
  rw [step, faultOf?]
  cases Line.parse? (k.place c) text with
  | none => rfl
  | some line => exact log_apply

variable {names keys : Set String} {move : Position → Position} {c' : Compilation}

theorem fault?_eq {line : Line} (h : Alike names keys move c c') (hk : Settled names c k)
    (hi : ∀ i ∈ introduced? c k line, i.name ∈ names) : fault? c' k line = fault? c k line := by
  cases line with
  | action name => rw [fault?, h.contains (hi _ rfl), fault?]
  | definition kind name bases => rw [fault?, h.isTaken (hi _ rfl), fault?]
  | «section» s bases => rw [fault?, open_action_eq h hk, fault?]
  | urls => rw [fault?, open_action_eq h hk, fault?]
  | typedef name expr =>
    rw [fault?, fault?]
    split
    · rfl
    · next he => rw [h.isTaken (hi ⟨name, .header⟩ (by rw [introduced?, he]; rfl))]
  | _ => rfl

/-- The same is wrong with a text in two compilations that agree on what it introduces. -/
theorem faultOf?_eq {text : List Char} (h : Alike names keys move c c') (hk : Settled names c k)
    (hi : ∀ i ∈ (Line.parse? (k.place c) text).bind (introduced? c k), i.name ∈ names) :
    faultOf? c' k text = faultOf? c k text := by
  rw [faultOf?, place_eq h hk, faultOf?]
  split
  · rfl
  · next line hl => exact fault?_eq h hk fun i hm => hi i (by rwa [hl])

end Compile

/-! ## Whole inputs -/

/-- The diagnostic at another position. -/
def Diagnostic.moved (move : Position → Position) (d : Diagnostic) : Diagnostic :=
  { d with position := move d.position }

theorem map_moved_diagnosed (move : Position → Position) (pos : Position) (fault : Option Fault) :
    (Compile.diagnosed pos fault).map (Diagnostic.moved move)
      = Compile.diagnosed (move pos) fault := by
  cases fault <;> rfl

/-- The lines with other numbers. -/
def renumbered (number : Nat → Nat) (lines : List (Nat × List Char)) : List (Nat × List Char) :=
  lines.map fun line => (number line.1, line.2)

theorem renumbered_id (lines : List (Nat × List Char)) : renumbered id lines = lines :=
  List.map_id lines

namespace Compilation

open Compile (Beside Settled)

variable {names keys : Set String} {move : Position → Position} {file file' : String}
variable {number : Nat → Nat} {c c' : Compilation} {k : Cursor}

theorem readLogical_cons (n : Nat) (text : List Char) (lines : List (Nat × List Char)) :
    c.readLogical file ((n, text) :: lines) k
      = (Compile.step ⟨file, n⟩ text c k).1.readLogical file lines
        (Compile.step ⟨file, n⟩ text c k).2 := rfl

/-- The same lines, in a file of another name where they have other numbers. -/
theorem beside_readLogical (lines : List (Nat × List Char))
    (hmove : ∀ n, move ⟨file, n⟩ = ⟨file', number n⟩) (h : Alike names keys move c c')
    (hk : Settled names c k) :
    introductions file' (renumbered number lines) c' k = introductions file lines c k
      ∧ Beside (Seen names (introductions file lines c k)) keys move
        (c.readLogical file lines k) (c'.readLogical file' (renumbered number lines) k) := by
  induction lines generalizing names c c' k with
  | nil => exact ⟨rfl, rfl, h.seen_nil⟩
  | cons line lines ih =>
    obtain ⟨n, text⟩ := line
    obtain ⟨hcursor, hstep⟩ := Compile.beside_step ⟨file, n⟩ text h hk
    rw [hmove] at hcursor hstep
    have hseen : Settled (Seen names ((Source.Line.parse? (k.place c) text).bind
        (Compile.introduced? c k)).toList) c k := hk.mono fun _ => .inl
    have hnext := Compile.settled_step ⟨file, n⟩ hseen
      fun i hi => .inr ⟨i, Option.mem_toList.2 hi, rfl⟩
    obtain ⟨hintro, hrun⟩ := ih hstep hnext
    rw [← hcursor] at hintro hrun
    rw [renumbered, List.map_cons, introductions, introductions, Compile.place_eq h hk,
      Compile.introduced?_eq h hk, readLogical_cons, readLogical_cons, seen_append]
    rw [← renumbered, hintro, hcursor]
    rw [hcursor] at hrun
    exact ⟨rfl, hrun⟩

/-- Where two compilations agree on what the lines introduce, the same is reported in both. -/
theorem log_readLogical (lines : List (Nat × List Char))
    (hmove : ∀ n, move ⟨file, n⟩ = ⟨file', number n⟩) (h : Alike names keys move c c')
    (hk : Settled names c k) (hi : ∀ i ∈ introductions file lines c k, i.name ∈ names) :
    ∃ new, (c.readLogical file lines k).1.log = new ++ c.log
      ∧ (c'.readLogical file' (renumbered number lines) k).1.log
        = new.map (Diagnostic.moved move) ++ c'.log := by
  induction lines generalizing c c' k with
  | nil => exact ⟨[], rfl, rfl⟩
  | cons line lines ih =>
    obtain ⟨n, text⟩ := line
    rw [introductions, List.forall_mem_append] at hi
    have hin := fun i hm => hi.1 i (Option.mem_toList.2 hm)
    obtain ⟨hcursor, hstep⟩ := Compile.beside_step ⟨file, n⟩ text h hk
    rw [seen_eq_self hi.1] at hstep
    obtain ⟨new, hlog, hlog'⟩ := ih hstep (Compile.settled_step ⟨file, n⟩ hk hin) hi.2
    refine ⟨new ++ Compile.diagnosed ⟨file, n⟩ (Compile.faultOf? c k text), ?_, ?_⟩
    · rw [readLogical_cons, hlog, Compile.log_step, List.append_assoc]
    · rw [hmove] at hcursor hlog'
      rw [renumbered, List.map_cons, readLogical_cons, hcursor, ← renumbered, hlog',
        Compile.log_step, Compile.faultOf?_eq h hk hin, List.map_append, map_moved_diagnosed,
        hmove, List.append_assoc]

/-- What an input introduces does not depend on what has been read before it. -/
theorem introductions_eq (file file' : String) (lines : List (Nat × List Char))
    (c c' : Compilation) : introductions file' lines c' {} = introductions file lines c {} := by
  have hnone : Alike ∅ ∅ (fun p => ⟨file', p.line⟩) c c' :=
    ⟨fun _ h => h.elim, fun _ h => h.elim⟩
  have hmove : ∀ n, (fun p : Position => (⟨file', p.line⟩ : Position)) ⟨file, n⟩ = ⟨file', id n⟩ :=
    fun _ => rfl
  have hstart : Settled ∅ c {} := Compile.settled_outside rfl
  calc introductions file' lines c' {}
    _ = introductions file' (renumbered id lines) c' {} := by rw [renumbered_id]
    _ = introductions file lines c {} := (beside_readLogical lines hmove hnone hstart).1

end Compilation

end SchemaLang
