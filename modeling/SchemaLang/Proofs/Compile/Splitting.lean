import SchemaLang.Proofs.Compile.Parallel
import SchemaLang.Proofs.Compile.Report

/-!
# A schema that is spread over two inputs

What is remembered from line to line ends with the input.  A header, or a typedef that is accepted,
leaves the block in which it stands, and comments, groups, headers and typedefs are recognized
wherever they stand.  So a schema may be cut before such a line, and before the comments and groups
over it, when no documentation and no group is waiting there: the second part does in an input of
its own what it does after the first part, at other positions.

A typedef with a count that is too large is only reported and stays in the block, so that before
such a line a schema may not be cut.

* `Source.logicalLines_append`: the logical lines of two parts, one after the other.
* `Source.Line.parse?_of_nowhere`: what is recognized outside all blocks is recognized everywhere.
* `Compilation.readLogical_away`: lines that start afresh do the same outside the block.
* `Compilation.readLines_append`: the two parts give the same type model and the same diagnostics.
* `Compilation.readLines_append_ne`: the cut before a typedef that is only reported.
-/

namespace SchemaLang

/-! ## Continued lines -/

namespace Source

theorem joinFrom_append {first : List (List Char)}
    (hend : ∀ line ∈ first.getLast?, continued? line = none) (second : List (List Char)) (n : Nat)
    (pending : List Char) (hp : first = [] → pending = []) :
    joinFrom n pending (first ++ second)
      = joinFrom n pending first ++ joinFrom (n + first.length) [] second := by
  induction first generalizing n pending with
  | nil => rw [hp rfl, List.nil_append, joinFrom, List.nil_append, List.length_nil, Nat.add_zero]
  | cons line rest ih =>
    have hrest : ∀ last ∈ rest.getLast?, continued? last = none := fun last hl =>
      hend last (by rw [List.getLast?_cons, Option.mem_def.1 hl]; rfl)
    have hlen : n + (line :: rest).length = n + 1 + rest.length := by
      rw [List.length_cons]
      omega
    rw [List.cons_append, joinFrom, joinFrom, hlen]
    split
    · next part hpart =>
      refine ih hrest _ _ fun hnil => ?_
      have hnone := hend line (by rw [hnil]; rfl)
      simp [hnone] at hpart
    · rw [ih hrest _ _ fun _ => rfl, List.cons_append]

theorem joinFrom_add (m n : Nat) (pending : List Char) (lines : List (List Char)) :
    joinFrom (m + n) pending lines = renumbered (m + ·) (joinFrom n pending lines) := by
  induction lines generalizing n pending with
  | nil => rfl
  | cons line rest ih =>
    rw [joinFrom, joinFrom]
    split
    · exact ih (n + 1) _
    · exact congrArg _ (ih (n + 1) _)

/-- The second part begins with a logical line of its own. -/
theorem logicalLines_append {first : List (List Char)}
    (hend : ∀ line ∈ first.getLast?, continued? line = none) (second : List (List Char)) :
    logicalLines (first ++ second)
      = joinFrom 1 [] first ++ renumbered (first.length + ·) (logicalLines second) := by
  rw [logicalLines, List.append_assoc, joinFrom_append hend _ _ _ fun _ => rfl, Nat.add_comm,
    joinFrom_add, logicalLines]

theorem logicalLines_eq {lines : List (List Char)}
    (hend : ∀ line ∈ lines.getLast?, continued? line = none) :
    logicalLines lines = joinFrom 1 [] lines ++ [(lines.length + 1, [])] := by
  have h := logicalLines_append hend []
  rwa [List.append_nil] at h

end Source

/-! ## Lines that need no block -/

namespace Source.Line

theorem blanks?_of_typedef? {cs : List Char} {line : Line} (h : typedef? cs = some line) :
    blanks? cs = none := by
  simp only [typedef?, Option.bind_eq_bind, Option.bind_eq_some_iff] at h
  obtain ⟨rest, hw, -⟩ := h
  cases cs with
  | nil => rfl
  | cons c cs =>
    have hc : 't' = c := by
      by_contra hne
      simp [word?, hne] at hw
    subst hc
    rfl

/-- What is recognized outside all blocks is recognized everywhere: a line that needs a block has a
blank in front, and a typedef has none. -/
theorem parse?_of_nowhere {cs : List Char} {line : Line} (h : parse? {} cs = some line)
    (place : Place) : parse? place cs = some line := by
  simp only [parse?, onlyIf, Option.orElse_eq_orElse, Option.orElse_eq_or, Option.or_eq_some_iff,
    Bool.false_eq_true, if_false, reduceCtorEq, false_or, true_and] at h
  obtain h | ⟨hc, h | ⟨hg, h | ⟨ha, h | ⟨hd, h⟩⟩⟩⟩ := h
  · simp [parse?, h]
  · simp [parse?, hc, h]
  · simp [parse?, hc, hg, h]
  · simp [parse?, hc, hg, ha, h]
  · have hb := blanks?_of_typedef? h
    simp [parse?, hc, hg, ha, hd, h, onlyIf, section?, urls?, value?, member?, url?, hb]

/-- A comment, an empty line or a group. -/
def isRemark : Line → Bool
  | .comment _ => true
  | .group _ => true
  | _ => false

/-- A header, or a typedef that is accepted. -/
def leavesBlock : Line → Bool
  | .action _ => true
  | .definition _ _ _ => true
  | .typedef _ expr => expr.type?.toOption.isSome
  | _ => false

end Source.Line

open Source (Line)

/-- Nothing but comments, empty lines and groups stands before the first line that leaves a
block. -/
def StartsAfresh (texts : List (List Char)) : Prop :=
  ∀ text ∈ texts.takeWhile fun text => !(Line.parse? {} text).any Line.leavesBlock,
    (Line.parse? {} text).any Line.isRemark = true

instance (texts : List (List Char)) : Decidable (StartsAfresh texts) :=
  inferInstanceAs (Decidable (∀ text ∈ texts.takeWhile _, _))

/-! ## Leaving the block -/

/-- The cursor outside all blocks. -/
def Cursor.away (k : Cursor) : Cursor := { k with block := .outside }

namespace Compile

variable {pos : Position} {c : Compilation} {k : Cursor}

theorem apply_of_leavesBlock {line : Line} (h : line.leavesBlock = true) :
    apply pos line c k.away = apply pos line c k := by
  cases line with
  | action name => rfl
  | definition kind name bases => rfl
  | typedef name expr =>
    rw [apply, apply]
    split
    · next he => simp [Line.leavesBlock, he, Except.toOption] at h
    · rfl
  | _ => simp [Line.leavesBlock] at h

/-- A remark does not look at the block and stays in it. -/
theorem apply_of_isRemark {line : Line} (h : line.isRemark = true) :
    apply pos line c k.away = ((apply pos line c k).1, (apply pos line c k).2.away) := by
  cases line with
  | comment doc => cases doc <;> rfl
  | group name => rfl
  | _ => simp [Line.isRemark] at h

theorem step_of_parse? {text : List Char} {line : Line} (h : Line.parse? {} text = some line) :
    step pos text c k = apply pos line c k := by
  rw [step, Line.parse?_of_nowhere h]

theorem step_nil : step pos [] c k = (c, k) := by
  have hempty : Line.parse? {} [] = some (.comment none) := rfl
  rw [step_of_parse? hempty]
  rfl

end Compile

namespace Compilation

variable {file : String} {c : Compilation}

theorem readLogical_append (lines others : List (Nat × List Char)) (k : Cursor) :
    c.readLogical file (lines ++ others) k
      = (c.readLogical file lines k).1.readLogical file others (c.readLogical file lines k).2 :=
  List.foldl_append

/-- Lines that start afresh do the same outside the block. -/
theorem readLogical_away {lines : List (Nat × List Char)} {k : Cursor}
    (h : StartsAfresh (lines.map Prod.snd)) :
    (c.readLogical file lines k.away).1 = (c.readLogical file lines k).1 := by
  induction lines generalizing c k with
  | nil => rfl
  | cons line lines ih =>
    obtain ⟨n, text⟩ := line
    rw [readLogical_cons, readLogical_cons]
    by_cases hl : (Line.parse? {} text).any Line.leavesBlock = true
    · obtain ⟨line, hp, hleaves⟩ := (Option.any_eq_true _ _).1 hl
      rw [Compile.step_of_parse? hp, Compile.step_of_parse? hp,
        Compile.apply_of_leavesBlock hleaves]
    · rw [StartsAfresh, List.map_cons, List.takeWhile_cons_of_pos (by simpa using hl),
        List.forall_mem_cons] at h
      obtain ⟨line, hp, hremark⟩ := (Option.any_eq_true _ _).1 h.1
      rw [Compile.step_of_parse? hp, Compile.step_of_parse? hp,
        Compile.apply_of_isRemark hremark]
      exact ih h.2

end Compilation

/-! ## Two inputs as one -/

/-- The lines of the second file stand in the first one, after `n` lines. -/
def Position.appended (first second : String) (n : Nat) (p : Position) : Position :=
  if p.file = second then ⟨first, n + p.line⟩ else p

theorem Position.appended_second (first second : String) (n line : Nat) :
    Position.appended first second n ⟨second, line⟩ = ⟨first, n + line⟩ := if_pos rfl

theorem Position.appended_first {first second : String} (h : first ≠ second) (n : Nat)
    {p : Position} (hp : p.file = first) : p.appended first second n = p :=
  if_neg (hp ▸ h)

theorem Diagnostic.report_map_report (f : Diagnostic → Diagnostic) (log : List Diagnostic) :
    report ((report log).map f) = report (log.map f) :=
  report_congr fun d => by simp [mem_report]

namespace Compilation

variable {file file₁ file₂ : String}

theorem edits_start (lines : List (Nat × List Char)) :
    Edits Set.univ file {} (readLogical file lines {} {}).1 :=
  edits_readLogical (Compile.settled_outside rfl) fun _ _ => trivial

/-- What has been read first stands in the first file. -/
theorem alike_appended (hf : file₁ ≠ file₂) (n : Nat) (lines : List (Nat × List Char)) :
    Alike Set.univ Set.univ (Position.appended file₁ file₂ n) (readLogical file₁ lines {} {}).1
      (readLogical file₁ lines {} {}).1 where
  types _ _ := rfl
  positions key _ := by
    cases hp : (readLogical file₁ lines {} {}).1.positions.get? key with
    | none => rfl
    | some p =>
      rcases (edits_start lines).file_of_positions hp with hnone | hfile
      · exact absurd hnone (by simp [show (∅ : NameMap Position).get? key = none from rfl])
      · rw [Option.map_some, Position.appended_first hf n hfile]

theorem map_appended_log (hf : file₁ ≠ file₂) (n : Nat) (lines : List (Nat × List Char)) :
    (readLogical file₁ lines {} {}).1.log.map (Diagnostic.moved (Position.appended file₁ file₂ n))
      = (readLogical file₁ lines {} {}).1.log := by
  have hedits : Edits Set.univ file₁ {} (readLogical file₁ lines {} {}).1 := edits_start lines
  obtain ⟨new, hlog, hfile⟩ := hedits.log
  have hnew : ∀ d ∈ new, Diagnostic.moved (Position.appended file₁ file₂ n) d = d := by
    intro d hd
    rw [Diagnostic.moved, Position.appended_first hf n (hfile d hd)]
  rw [hlog, List.map_append, List.map_congr_left hnew, List.map_id']
  rfl

/-- What is read after the first part may be read as if nothing had been remembered. -/
theorem readLines_append_eq {first second : List (List Char)}
    (hend : ∀ line ∈ first.getLast?, Source.continued? line = none)
    (hdoc : (readLogical file (Source.logicalLines first) {} {}).2.doc = [])
    (hgroup : (readLogical file (Source.logicalLines first) {} {}).2.group = none)
    (hfresh : StartsAfresh ((Source.logicalLines second).map Prod.snd)) :
    readLines file (first ++ second) {}
      = ((readLines file first {}).readLogical file
        (renumbered (first.length + ·) (Source.logicalLines second)) {}).1 := by
  -- The empty line that ends the first part does nothing.
  have hfirst : readLogical file (Source.logicalLines first) {} {}
      = readLogical file (Source.joinFrom 1 [] first) {} {} := by
    rw [Source.logicalLines_eq hend, readLogical_append, readLogical_cons, Compile.step_nil]
    rfl
  have haway : (readLogical file (Source.logicalLines first) {} {}).2.away = {} := by
    rw [Cursor.away, hdoc, hgroup]
  have hrest : StartsAfresh ((renumbered (first.length + ·)
      (Source.logicalLines second)).map Prod.snd) := by
    rwa [renumbered, List.map_map]
  rw [readLines, Source.logicalLines_append hend, readLogical_append, ← hfirst,
    ← readLogical_away hrest, haway, readLines]

/-- A schema may be cut where a line is not continued, no documentation and no group is waiting and
what follows starts afresh. -/
theorem readLines_append (hf : file₁ ≠ file₂) (first second : List (List Char))
    (hend : ∀ line ∈ first.getLast?, Source.continued? line = none)
    (hdoc : (readLogical file₁ (Source.logicalLines first) {} {}).2.doc = [])
    (hgroup : (readLogical file₁ (Source.logicalLines first) {} {}).2.group = none)
    (hfresh : StartsAfresh ((Source.logicalLines second).map Prod.snd)) :
    (readLines file₁ (first ++ second) {}).types
        = (readLines file₂ second (readLines file₁ first {})).types
      ∧ (readLines file₁ (first ++ second) {}).diagnostics
        = Diagnostic.report ((readLines file₂ second (readLines file₁ first {})).diagnostics.map
          (Diagnostic.moved (Position.appended file₁ file₂ first.length)))
      ∧ ∀ key, (readLines file₁ (first ++ second) {}).positions.get? key
        = ((readLines file₂ second (readLines file₁ first {})).positions.get? key).map
          (Position.appended file₁ file₂ first.length) := by
  have happend := fun line => Position.appended_second file₁ file₂ first.length line
  have halike := alike_appended hf first.length (Source.logicalLines first)
  have hstart : Compile.Settled Set.univ (readLines file₁ first {}) {} :=
    Compile.settled_outside rfl
  obtain ⟨-, -, hmodel⟩ := beside_readLogical (Source.logicalLines second) happend halike hstart
  obtain ⟨new, hlog, hlog'⟩ := log_readLogical (Source.logicalLines second) happend halike hstart
    fun _ _ => trivial
  rw [← map_appended_log hf first.length, ← List.map_append, ← hlog] at hlog'
  rw [readLines_append_eq hend hdoc hgroup hfresh]
  refine ⟨NameMap.ext_get? fun name => hmodel.types name (.inl trivial), ?_,
    fun key => hmodel.positions key trivial⟩
  rw [diagnostics, diagnostics, Diagnostic.report_map_report]
  exact congrArg Diagnostic.report hlog'

/-- An action and its URLs, with a group that ends and a line that is continued. -/
def upperPart : List (List Char) :=
  ["group \"G\"", "# Gets a", "action A", " urls", "  GET /a", "group", " input", "  int\\",
    " a"].map String.toList

/-- Begins with a comment and a group; the action is there already, and a line is no member. -/
def lowerPart : List (List Char) :=
  ["# About S", "", "group \"H\"", "struct S (B)", "  int \\", "  x", " unused", "action A",
    " input", "  S a", "typedef A_input(len > 0) T"].map String.toList

/-- The cut is in front of the comment, and what is reported below it moves up or down with it. -/
theorem readLines_append_actions :
    "a" ≠ "b"
      ∧ (∀ line ∈ upperPart.getLast?, Source.continued? line = none)
      ∧ (readLogical "a" (Source.logicalLines upperPart) {} {}).2.doc = []
      ∧ (readLogical "a" (Source.logicalLines upperPart) {} {}).2.group = none
      ∧ StartsAfresh ((Source.logicalLines lowerPart).map Prod.snd)
      ∧ (readLines "a" (upperPart ++ lowerPart) {}).types
        = (readLines "b" lowerPart (readLines "a" upperPart {})).types
      ∧ (readLines "a" (upperPart ++ lowerPart) {}).diagnostics
        = Diagnostic.report ((readLines "b" lowerPart (readLines "a" upperPart {})).diagnostics.map
          (Diagnostic.moved (Position.appended "a" "b" 9)))
      ∧ (∀ key, (readLines "a" (upperPart ++ lowerPart) {}).positions.get? key
        = ((readLines "b" lowerPart (readLines "a" upperPart {})).positions.get? key).map
          (Position.appended "a" "b" 9))
      ∧ (readLines "b" lowerPart (readLines "a" upperPart {})).errors
        = ["b:7: error: Syntax error", "b:8: error: Redefinition of action 'A'"] := by
  have hend : ∀ line ∈ upperPart.getLast?, Source.continued? line = none := by decide +kernel
  have hdoc : (readLogical "a" (Source.logicalLines upperPart) {} {}).2.doc = [] := by
    decide +kernel
  have hgroup : (readLogical "a" (Source.logicalLines upperPart) {} {}).2.group = none := by
    decide +kernel
  have hfresh : StartsAfresh ((Source.logicalLines lowerPart).map Prod.snd) := by decide +kernel
  have hfiles : "a" ≠ "b" := by decide
  obtain ⟨htypes, hdiagnostics, hpositions⟩ :=
    readLines_append hfiles upperPart lowerPart hend hdoc hgroup hfresh
  exact ⟨hfiles, hend, hdoc, hgroup, hfresh, htypes, hdiagnostics, hpositions, by decide +kernel⟩

def beforeCut : List (List Char) := ["struct S".toList]

/-- A typedef whose count does not fit into 64 bits, and a member. -/
def afterCut : List (List Char) :=
  ["typedef string(len > 18446744073709551616) T".toList, "    int a".toList]

/-- The first of these lines is recognized as a typedef. -/
def oversized : Line :=
  Line.typedef "T" ⟨"string", [.length .gt "18446744073709551616".toList], .plain⟩

/-- The typedef is only reported, so that the member is one of the struct before the cut; in an
input of its own it has no struct to be added to. -/
theorem readLines_append_ne :
    (∀ line ∈ beforeCut.getLast?, Source.continued? line = none)
      ∧ (readLogical "a" (Source.logicalLines beforeCut) {} {}).2.doc = []
      ∧ (readLogical "a" (Source.logicalLines beforeCut) {} {}).2.group = none
      ∧ (Source.logicalLines afterCut).head?.bind (fun line => Line.parse? {} line.2)
        = some oversized
      ∧ (readLines "a" (beforeCut ++ afterCut) {}).types
        ≠ (readLines "b" afterCut (readLines "a" beforeCut {})).types
      ∧ (readLines "a" (beforeCut ++ afterCut) {}).diagnostics
        ≠ Diagnostic.report ((readLines "b" afterCut (readLines "a" beforeCut {})).diagnostics.map
          (Diagnostic.moved (Position.appended "a" "b" 1))) := by
  refine ⟨by decide +kernel, by decide +kernel, by decide +kernel, by decide +kernel, fun h => ?_,
    by decide +kernel⟩
  have hmembers := congrArg (fun types => ((types.get? "S").bind Definition.struct?).any
    fun s => s.members.isSome) h
  exact absurd hmembers (by decide +kernel)

end Compilation

end SchemaLang
