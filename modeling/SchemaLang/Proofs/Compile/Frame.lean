import SchemaLang.Proofs.Compile.Outline

/-!
# What an input leaves alone

An input may be read into any type model.  It changes the definitions under the names that its
lines introduce, which can be seen from its text, and it leaves all others as they were: items and
URLs are added to a definition that the same input has made, since every input starts outside all
blocks.  Nothing is taken out of the model, and no diagnostic is withdrawn.

* `Compile.Effect.contains`: a line keeps all names in use and adds the one that it introduces.
* `Compilation.contains_readLogical_of_mem`: what an input introduces is there afterwards.
* `Compilation.frame_readLines`: the frame of an input.
-/

namespace SchemaLang

namespace Compile

open Source (Line)

variable {pos : Position} {c c' : Compilation} {k : Cursor}

theorem Effect.contains {i : Option Introduction} (he : Effect pos c k i c') (name : String) :
    c'.types.contains name = true
      ↔ c.types.contains name = true ∨ ∃ j ∈ i, j.name = name := by
  cases he with
  | same ht =>
    rw [ht]
    simp
  | @adds _ key d d' hd ha ht =>
    rw [ht, NameMap.contains_insert, or_iff_right_of_imp]
    · simp
    · rintro rfl
      exact NameMap.contains_of_get? hd
  | @header _ other d _ _ ht =>
    rw [ht, NameMap.contains_insert, or_comm]
    simp
  | @«section» _ key a s d _ hk _ _ ht =>
    rw [ht, NameMap.contains_insert, NameMap.contains_insert, or_comm]
    refine or_congr (or_iff_right_of_imp ?_) ?_
    · rintro rfl
      exact NameMap.contains_of_get? hk
    · simp

theorem contains_step {text : List Char} {name : String} (h : c.types.contains name = true) :
    (step pos text c k).1.types.contains name = true :=
  (effect_step.contains name).2 (.inl h)

end Compile

namespace Compilation

open Compile (Settled)

variable {file : String} {c : Compilation} {k : Cursor}

theorem contains_readLogical {lines : List (Nat × List Char)} {name : String}
    (h : c.types.contains name = true) :
    (c.readLogical file lines k).1.types.contains name = true :=
  readLogical_induct (P := fun c => c.types.contains name = true)
    (fun _ _ _ _ => Compile.contains_step) h

/-- What an input introduces is there when it has been read. -/
theorem contains_readLogical_of_mem {lines : List (Nat × List Char)} {i : Introduction}
    (hi : i ∈ introductions file lines c k) :
    (c.readLogical file lines k).1.types.contains i.name = true := by
  induction lines generalizing c k with
  | nil => exact absurd hi List.not_mem_nil
  | cons line lines ih =>
    obtain ⟨n, text⟩ := line
    rw [introductions, List.mem_append] at hi
    rcases hi with hi | hi
    · have hstep : (Compile.step ⟨file, n⟩ text c k).1.types.contains i.name = true :=
        (Compile.effect_step.contains i.name).2 (.inr ⟨i, Option.mem_toList.1 hi, rfl⟩)
      rw [readLogical_cons]
      exact contains_readLogical hstep
    · exact ih hi

theorem mem_introducedNames_iff {lines : List (Nat × List Char)} {name : String} :
    name ∈ Source.introducedNames (lines.map Prod.snd)
      ↔ ∃ i ∈ introductions file lines c {}, i.name = name := by
  rw [Source.introducedNames, ← names_introductions (Compile.follows_start c), List.mem_map]

/-- An input puts definitions under the names that its lines introduce and leaves what stands under
all others as it was, whatever it is read into.  No name is given up, and what has been reported
stays. -/
theorem frame_readLines (c : Compilation) (file : String) (lines : List (List Char)) :
    (∀ name, name ∉ Source.introducedNames ((Source.logicalLines lines).map Prod.snd) →
        (c.readLines file lines).types.get? name = c.types.get? name)
      ∧ (∀ name, (c.readLines file lines).types.contains name = true
        ↔ c.types.contains name = true
          ∨ name ∈ Source.introducedNames ((Source.logicalLines lines).map Prod.snd))
      ∧ c.log <:+ (c.readLines file lines).log
      ∧ (∀ d ∈ c.diagnostics, d ∈ (c.readLines file lines).diagnostics) := by
  have hlog : c.log <:+ (c.readLines file lines).log := suffix_log_readLogical
  have hleft : ∀ name, name ∉ Source.introducedNames ((Source.logicalLines lines).map Prod.snd) →
      (c.readLines file lines).types.get? name = c.types.get? name := by
    intro name hn
    let names := { name | name ∈ Source.introducedNames ((Source.logicalLines lines).map Prod.snd) }
    have hstart : Settled names c {} := Compile.settled_outside rfl
    have hedits : Edits names file c (c.readLines file lines) :=
      edits_readLogical hstart fun i hi => mem_introducedNames_iff.2 ⟨i, hi, rfl⟩
    exact hedits.get?_types hn
  refine ⟨hleft, fun name => ⟨fun h => ?_, fun h => ?_⟩, hlog, fun d hd => ?_⟩
  · by_cases hn : name ∈ Source.introducedNames ((Source.logicalLines lines).map Prod.snd)
    · exact .inr hn
    · rw [NameMap.contains, hleft name hn] at h
      exact .inl h
  · rcases h with h | h
    · exact contains_readLogical h
    · obtain ⟨i, hi, rfl⟩ := mem_introducedNames_iff.1 h
      exact contains_readLogical_of_mem hi
  · exact Diagnostic.mem_report.2 (hlog.subset (Diagnostic.mem_report.1 hd))

/-- A struct, and an enum that is defined again, which is reported. -/
def redefined : Compilation := ({} : Compilation).read "" "struct S\n int i\nenum E\nenum E\n"

/-- Lines that define the enum once more, and a typedef that comes to nothing. -/
def furtherLines : List (List Char) :=
  ["enum E", " a", "?", "action A", " input", "  S s",
    "typedef int(len < 18446744073709551616) S"].map String.toList

theorem frame_readLines_redefined :
    Source.introducedNames ((Source.logicalLines furtherLines).map Prod.snd) = ["E", "A", "A_input"]
      ∧ (redefined.readLines "" furtherLines).types.get? "S" = redefined.types.get? "S"
      ∧ (redefined.readLines "" furtherLines).types.contains "A_input" = true
      ∧ redefined.diagnostics.length = 1
      ∧ ∀ d ∈ redefined.diagnostics, d ∈ (redefined.readLines "" furtherLines).diagnostics := by
  obtain ⟨hleft, hcontains, -, hreported⟩ := frame_readLines redefined "" furtherLines
  have hnames : Source.introducedNames ((Source.logicalLines furtherLines).map Prod.snd)
      = ["E", "A", "A_input"] := by decide +kernel
  rw [hnames] at hleft hcontains
  exact ⟨hnames, hleft "S" (by decide), (hcontains "A_input").2 (.inr (by decide)),
    by decide +kernel, hreported⟩

end Compilation

end SchemaLang
