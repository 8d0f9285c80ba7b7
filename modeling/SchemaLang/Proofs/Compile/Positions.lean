import SchemaLang.Proofs.Compile.Canonical
import SchemaLang.Proofs.Compile.Documentation
import SchemaLang.Proofs.Compile.Frame
import SchemaLang.Proofs.Compile.Marks
import SchemaLang.Proofs.Compile.Parallel
import SchemaLang.Proofs.Lint.Owners

/-!
# Where diagnostics stand

A diagnostic about a line stands at this line.  A finding of the linter stands where the positions
that have been kept say, and it is about a type of the model.  Such a type has been introduced by a
line, whatever has replaced it since, and a section introduces the type that it brings with it just
as a header does; so there is a position for it.  What is kept is the last mark of each name and of
each item, found from the texts that have been read.

* `Compile.positions_apply`: a line keeps the position of what it marks.
* `Charted.step`, `charted_readLogical`, `charted_after`: positions are last marks, and types have
  been marked, after every line and at any time.
* `Compilation.diagnostics_positioned`: no finding is without a position, and all diagnostics stand
  at lines of what has been read.
-/

namespace SchemaLang

open Source (Scope Line)
open Compile (Follows)

variable {pos : Position} {c : Compilation} {k : Cursor} {scope : Scope} {owner : Option String}

/-! ## What a line marks -/

namespace Compile

theorem positions_reportIf (b : Bool) (fault : Fault) :
    (c.reportIf b pos fault).positions = c.positions := by
  cases b <;> rfl

/-- What values and members are added to is what has been introduced last. -/
def Owns (k : Cursor) (owner : Option String) : Prop :=
  ∀ key, k.block.type? = some key → owner = some key

/-- The positions once something has been marked. -/
def marking (c : Compilation) (marked : Option (String × Option String)) (pos : Position) :
    NameMap Position :=
  marked.elim c.positions fun m => c.positions.insert (markKey m.1 m.2) pos

theorem positions_value {item : String} (hc : c.types.Canonical) (ho : Owns k owner)
    (hl : (k.place c).values = true) :
    (value pos item c k).1.positions
      = marking c (owner.map fun name => (name, some item)) pos := by
  obtain ⟨key, e, hb, he⟩ := exists_of_open hl
  have hname : e.name = key := hc.name key _ (get?_of_open he fun _ _ => Definition.eq_of_enum?)
  rw [value, he, ho key hb, ← hname]
  rfl

theorem positions_member {m : Member} (hc : c.types.Canonical) (ho : Owns k owner)
    (hl : (k.place c).members = true) :
    (member pos m c k).1.positions
      = marking c (owner.map fun name => (name, some m.name)) pos := by
  obtain ⟨key, s, hb, hs⟩ := exists_of_open hl
  have hname : s.name = key := hc.name key _ (get?_of_open hs fun _ _ => Definition.eq_of_struct?)
  rw [member, hs, ho key hb, ← hname]
  rfl

theorem positions_section {s : Section} {bases : Option (List String)} (hf : Follows c k scope) :
    (sectionOf pos s bases c k).1.positions
      = marking c ((scope.introduced? (.section s bases)).map fun name => (name, none)) pos := by
  rw [sectionOf, hf.action, Scope.introduced?]
  cases hs : scope.action? with
  | none => rfl
  | some key =>
    obtain ⟨a, ha, rfl⟩ := hf.exists_action hs
    rw [Option.bind_some, action?_eq_some_iff.2 ha]
    simp only [Compilation.define, positions_reportIf]
    rfl

/-- A line keeps the position of what it marks and no other. -/
theorem positions_apply {line : Line} (hc : c.types.Canonical) (hf : Follows c k scope)
    (ho : Owns k owner) (hl : line.Allowed scope.place) :
    (apply pos line c k).1.positions = marking c (scope.marked? owner line) pos := by
  cases line with
  | comment doc => rfl
  | group name => rfl
  | action name => exact congrArg (·.insert name pos) (positions_reportIf _ _)
  | definition kind name bases => exact congrArg (·.insert name pos) (positions_reportIf _ _)
  | «section» s bases =>
    exact positions_section hf
  | urls =>
    rw [apply, urls]
    split
    · rfl
    · exact positions_reportIf _ _
  | value item => exact positions_value hc ho (by rwa [hf.place])
  | member optional item expr =>
    have hmembers : (k.place c).members = true := by rwa [hf.place]
    rw [apply, Scope.marked?, Line.item?]
    split
    · next he =>
      rw [he]
      rfl
    · next he =>
      rw [he]
      exact positions_member hc ho hmembers
  | url method path =>
    rw [apply, url]
    split
    · simp only
      split <;> exact positions_reportIf _ _
    · rfl
  | typedef name expr =>
    rw [apply, Scope.marked?, Scope.introduced?]
    split
    · next he =>
      rw [he]
      rfl
    · next he =>
      rw [he]
      exact congrArg (·.insert name pos) (positions_reportIf _ _)

theorem owns_apply {line : Line} (hf : Follows c k scope) (ho : Owns k owner) :
    Owns (apply pos line c k).2 (scope.ownerAfter owner line) := by
  intro key hkey
  cases line with
  | comment doc => cases doc <;> exact ho key hkey
  | group name => exact ho key hkey
  | action name => simp [apply, action, Cursor.entering, Block.type?] at hkey
  | definition kind name bases => exact hkey
  | «section» s bases =>
    rw [apply, sectionOf, hf.action] at hkey
    rw [Scope.ownerAfter, Scope.introduced?]
    cases hs : scope.action? with
    | none =>
      rw [hs] at hkey
      exact ho key hkey
    | some action =>
      obtain ⟨a, ha, rfl⟩ := hf.exists_action hs
      rw [hs, Option.bind_some, action?_eq_some_iff.2 ha] at hkey
      exact hkey
  | urls =>
    rw [apply, urls] at hkey
    split at hkey
    · exact ho key hkey
    · simp [Block.type?] at hkey
  | value item => exact ho key hkey
  | member optional item expr =>
    rw [apply] at hkey
    split at hkey <;> exact ho key hkey
  | url method path =>
    rw [apply, url] at hkey
    split at hkey
    · simp [Block.type?] at hkey
    · exact ho key hkey
  | typedef name expr =>
    rw [apply] at hkey
    split at hkey
    · next he =>
      rw [Scope.ownerAfter, Scope.introduced?, he]
      exact ho key hkey
    · simp [typedef, Cursor.entering, Block.type?] at hkey

end Compile

/-! ## The positions that are kept -/

/-- Positions are those of the last marks, and what is defined has been marked. -/
structure Charted (c : Compilation) (marks : List Mark) : Prop where
  canonical : c.types.Canonical
  position : ∀ name item, Pointless name →
    c.positions.get? (markKey name item) = lastMark? marks name item
  introduced : ∀ name, c.types.contains name = true →
    ∃ m ∈ marks, m.name = name ∧ m.item = none

namespace Charted

variable {marks : List Mark}

theorem start : Charted {} [] where
  canonical := .empty
  position _ _ _ := rfl
  introduced _ h := by cases h

/-- What has been reported does not matter. -/
theorem congr {c' : Compilation} (h : Charted c marks) (ht : c'.types = c.types)
    (hp : c'.positions = c.positions) : Charted c' marks := by
  obtain ⟨hc, hpos, hintro⟩ := h
  rw [← ht] at hc hintro
  rw [← hp] at hpos
  exact ⟨hc, hpos, hintro⟩

theorem apply {line : Line} (h : Charted c marks) (hf : Follows c k scope)
    (ho : Compile.Owns k owner) (hl : line.Allowed scope.place)
    (hn : ∀ m ∈ scope.marked? owner line, Pointless m.1)
    (hc : (Compile.apply pos line c k).1.types.Canonical) :
    Charted (Compile.apply pos line c k).1
      (marks ++ ((scope.marked? owner line).map fun m => ⟨m.1, m.2, pos⟩).toList) where
  canonical := hc
  position name item hname := by
    rw [Compile.positions_apply h.canonical hf ho hl]
    cases hm : scope.marked? owner line with
    | none => exact (h.position name item hname).trans (by simp)
    | some m =>
      have hinj : markKey m.1 m.2 = markKey name item ↔ m.1 = name ∧ m.2 = item :=
        ⟨markKey_inj (hn m hm) hname, fun ⟨hn, hi⟩ => hn ▸ hi ▸ rfl⟩
      rw [Compile.marking, Option.elim_some, NameMap.get?_insert, h.position name item hname]
      exact (if_congr hinj rfl rfl).trans
        (lastMark?_concat marks ⟨m.1, m.2, pos⟩ name item).symm
  introduced name hname := by
    rcases (Compile.effect_apply.contains name).1 hname with hold | ⟨i, hi, rfl⟩
    · obtain ⟨m, hm, hmark⟩ := h.introduced name hold
      exact ⟨m, List.mem_append_left _ hm, hmark⟩
    · have hname : scope.introduced? line = some i.name := by
        rw [← hf.introduced?, Option.mem_def.1 hi]
        rfl
      have hmark : scope.marked? owner line = some (i.name, none) := by
        have hitem : line.item? = none := by
          cases line <;> first | rfl | simp [Scope.introduced?] at hname
        rw [Scope.marked?, hitem]
        simp only [hname, Option.map_some]
      exact ⟨⟨i.name, none, pos⟩, by simp [hmark], rfl, rfl⟩

theorem step (pos : Position) {text : List Char} (h : Charted c marks) (hf : Follows c k scope)
    (ho : Compile.Owns k owner)
    (hn : ∀ m ∈ (scope.read? text).bind (scope.marked? owner), Pointless m.1) :
    Charted (Compile.step pos text c k).1
        (marks ++ (((scope.read? text).bind (scope.marked? owner)).map
          fun m => ⟨m.1, m.2, pos⟩).toList)
      ∧ Compile.Owns (Compile.step pos text c k).2
        ((scope.read? text).elim owner (scope.ownerAfter owner)) := by
  have hc := Compile.canonical_step pos text c k h.canonical
  rw [Compile.step, hf.parse?] at hc ⊢
  cases hr : scope.read? text with
  | none =>
    refine ⟨?_, ho⟩
    have hreport : Charted (c.report pos .unreadable) marks := h.congr rfl rfl
    simpa using hreport
  | some line =>
    rw [hr] at hn hc
    exact ⟨h.apply hf ho (Line.allowed_of_parse? hr) hn hc, Compile.owns_apply hf ho⟩

theorem readLogical {file : String} {lines : List (Nat × List Char)} (h : Charted c marks)
    (hf : Follows c k scope) (ho : Compile.Owns k owner)
    (hn : ∀ m ∈ marksFrom file scope owner lines, Pointless m.name) :
    Charted (c.readLogical file lines k).1 (marks ++ marksFrom file scope owner lines) := by
  induction lines generalizing c k scope owner marks with
  | nil =>
    rw [marksFrom, List.append_nil]
    exact h
  | cons line lines ih =>
    obtain ⟨n, text⟩ := line
    rw [marksFrom, List.forall_mem_append] at hn
    have hhead : ∀ m ∈ (scope.read? text).bind (scope.marked? owner), Pointless m.1 :=
      fun m hm => hn.1 ⟨m.1, m.2, ⟨file, n⟩⟩ (by rw [Option.mem_def.1 hm]; simp)
    obtain ⟨hstep, hown⟩ := h.step ⟨file, n⟩ hf ho hhead
    rw [marksFrom, ← List.append_assoc]
    exact ih hstep (hf.step text) hown hn.2

theorem serve (h : Charted c marks) (request : Request) :
    Charted (c.serve request) (marks ++ request.marks) := by
  have hread : ∀ file lines,
      (∀ m ∈ marksFrom file .outside none (Source.logicalLines lines), Pointless m.name) →
      Charted (c.readLines file lines)
        (marks ++ marksFrom file .outside none (Source.logicalLines lines)) :=
    fun file lines hn =>
      h.readLogical (Compile.follows_start c) (fun _ hkey => by cases hkey) hn
  have hn := request.pointless_marks
  cases request with
  | text file content => exact hread file _ hn
  | lines file content => exact hread file _ hn
  | finish =>
    rw [Request.marks, Request.input?, Option.elim_none, List.append_nil]
    exact h.congr rfl rfl

end Charted

theorem charted_after (requests : List Request) :
    Charted (Compilation.after requests) (requests.flatMap Request.marks) := by
  induction requests using List.reverseRecOn with
  | nil => exact .start
  | append_singleton requests request ih =>
    rw [Compilation.after, List.foldl_append, List.flatMap_append, List.flatMap_singleton]
    exact ih.serve request

namespace Compilation

/-! ## Lines of what has been read -/

theorem line_of_readLogical {file : String} {lines : List (Nat × List Char)} {d : Diagnostic}
    (h : d ∈ (c.readLogical file lines k).1.log) :
    d ∈ c.log ∨ d.position.file = file ∧ ∃ text, (d.position.line, text) ∈ lines := by
  induction lines generalizing c k with
  | nil => exact .inl h
  | cons line lines ih =>
    obtain ⟨n, text⟩ := line
    rw [readLogical_cons] at h
    rcases ih h with h | ⟨hfile, other, hm⟩
    · rw [Compile.log_step, List.mem_append] at h
      rcases h with h | h
      · obtain ⟨fault, -, rfl⟩ := Option.map_eq_some_iff.1 (Option.mem_toList.1 h)
        exact .inr ⟨rfl, text, List.mem_cons_self⟩
      · exact .inl h
    · exact .inr ⟨hfile, other, List.mem_cons_of_mem _ hm⟩

theorem mem_log_finish_iff {d : Diagnostic} :
    d ∈ c.finish.log ↔ d ∈ c.log ∨ ∃ f ∈ c.types.lint, d = c.located f := by
  rw [finish, List.mem_append, List.mem_reverse, List.mem_map, or_comm]
  simp only [eq_comm]

/-! ## Findings -/

/-- There is a position for a finding: that of its item, if the item has been marked, and else that
of its type. -/
theorem position_of_lint {requests : List Request} {f : Finding}
    (h : f ∈ (after requests).types.lint) :
    ∃ introduced, lastMark? (requests.flatMap Request.marks) f.type none = some introduced
      ∧ (after requests).positions.get? f.type = some introduced
      ∧ ((after requests).located f).position
        = (f.member.bind fun item => lastMark? (requests.flatMap Request.marks) f.type
            (some item)).getD introduced := by
  have hc := charted_after requests
  obtain ⟨m, hm, hname, hitem⟩ :=
    hc.introduced f.type (Types.contains_of_lint hc.canonical.name h)
  obtain ⟨request, -, hr⟩ := List.mem_flatMap.1 hm
  have hp : Pointless f.type := hname ▸ request.pointless_marks m hr
  obtain ⟨introduced, hlast⟩ := exists_lastMark? hm
  rw [hname, hitem] at hlast
  have hget : (after requests).positions.get? f.type = some introduced :=
    (hc.position f.type none hp).trans hlast
  refine ⟨introduced, hlast, hget, ?_⟩
  have hlook : (fun item => (after requests).positions.get? (f.type ++ "." ++ item))
      = fun item => lastMark? (requests.flatMap Request.marks) f.type (some item) :=
    funext fun item => hc.position f.type (some item) hp
  rw [located, positionOf, hlook, hget]
  cases f.member.bind fun item => lastMark? (requests.flatMap Request.marks) f.type (some item)
  · rfl
  · rfl

theorem holds_of_lint {requests : List Request} {f : Finding}
    (h : f ∈ (after requests).types.lint) :
    ∃ request ∈ requests, request.Holds ((after requests).located f).position := by
  have hmark : ∀ name item p, lastMark? (requests.flatMap Request.marks) name item = some p →
      ∃ request ∈ requests, request.Holds p := by
    intro name item p hp
    obtain ⟨m, hm, -, -, rfl⟩ := exists_of_lastMark? hp
    obtain ⟨request, hr, hm⟩ := List.mem_flatMap.1 hm
    exact ⟨request, hr, Request.holds_of_marks hm⟩
  obtain ⟨introduced, hlast, -, hpos⟩ := position_of_lint h
  rw [hpos]
  cases hitem : f.member.bind fun item =>
      lastMark? (requests.flatMap Request.marks) f.type (some item) with
  | none => exact hmark _ _ _ hlast
  | some p =>
    obtain ⟨item, -, hp⟩ := Option.bind_eq_some_iff.1 hitem
    exact hmark _ _ _ hp

theorem holds_of_mem_log {requests : List Request} {d : Diagnostic}
    (h : d ∈ (after requests).log) : ∃ request ∈ requests, request.Holds d.position := by
  induction requests using List.reverseRecOn with
  | nil => exact absurd h List.not_mem_nil
  | append_singleton requests request ih =>
    have hold : d ∈ (after requests).log →
        ∃ other ∈ requests ++ [request], other.Holds d.position := fun h =>
      have ⟨other, ho, hp⟩ := ih h
      ⟨other, List.mem_append_left _ ho, hp⟩
    have hlast : request ∈ requests ++ [request] := by simp
    have hread : ∀ file lines, request.input? = some (file, lines) →
        d ∈ ((after requests).readLines file lines).log →
        ∃ other ∈ requests ++ [request], other.Holds d.position := by
      intro file lines hr h
      rcases line_of_readLogical h with h | ⟨rfl, text, hm⟩
      · exact hold h
      · exact ⟨request, hlast, Request.holds_of_logicalLines hr hm⟩
    rw [after, List.foldl_append] at h
    cases request with
    | text file content => exact hread file _ rfl h
    | lines file content => exact hread file content rfl h
    | finish =>
      rcases mem_log_finish_iff.1 h with h | ⟨f, hf, rfl⟩
      · exact hold h
      · obtain ⟨other, ho, hp⟩ := holds_of_lint hf
        exact ⟨other, List.mem_append_left _ ho, hp⟩

/-- Diagnostics stand at lines of what has been read.  What `finish` adds are the findings of the
linter, each of which has a position: without a member, or about one that has never been declared
for its type, it stands where the type has been introduced last, and else where the member has been
declared last. -/
theorem diagnostics_positioned (requests : List Request) :
    (∀ d ∈ (after requests).diagnostics, ∃ request ∈ requests, request.Holds d.position)
      ∧ (∀ d, d ∈ (after (requests ++ [.finish])).diagnostics
        ↔ d ∈ (after requests).diagnostics
          ∨ ∃ f ∈ (after requests).types.lint, d = (after requests).located f)
      ∧ ∀ f ∈ (after requests).types.lint, ∃ introduced,
        (after requests).positions.get? f.type = some introduced
        ∧ lastMark? (requests.flatMap Request.marks) f.type none = some introduced
        ∧ ((∀ item ∈ f.member, ∀ m ∈ requests.flatMap Request.marks,
            m.name = f.type → m.item ≠ some item) →
          ((after requests).located f).position = introduced)
        ∧ ∀ item ∈ f.member, ∀ declared,
          lastMark? (requests.flatMap Request.marks) f.type (some item) = some declared →
          ((after requests).located f).position = declared := by
  refine ⟨fun d hd => holds_of_mem_log (Diagnostic.mem_report.1 hd), fun d => ?_, fun f hf => ?_⟩
  · have hfinish : after (requests ++ [.finish]) = (after requests).finish := by
      rw [after, List.foldl_append]
      rfl
    rw [hfinish, diagnostics, Diagnostic.mem_report, mem_log_finish_iff, diagnostics,
      Diagnostic.mem_report]
  · obtain ⟨introduced, hlast, hget, hpos⟩ := position_of_lint hf
    refine ⟨introduced, hget, hlast, fun hnever => ?_, fun item hitem declared hd => ?_⟩
    · rw [hpos]
      cases hm : f.member with
      | none => rfl
      | some item => rw [Option.bind_some, lastMark?_eq_none (hnever item hm), Option.getD_none]
    · rw [hpos, Option.mem_def.1 hitem, Option.bind_some, hd, Option.getD_some]

end Compilation

end SchemaLang
