import SchemaLang.Proofs.Compile.Parallel
import SchemaLang.Proofs.Compile.Report

/-!
# Inputs that are independent of each other

Two inputs that introduce no name in common may be read in either order.  Each finds all that it
looks at as the other has left it, which is as it was before, so it does the same as it would do
alone; and what each changes, the other does not touch.  The findings of the linter are about the
whole type model and stand at the positions of all inputs, but model and positions are the same in
the end.

* `Compilation.edits_read`, `Compilation.alike_read`, `Compilation.log_read`: an input changes only
  what belongs to the names that it introduces, and depends on these only.
* `Compilation.Same`: what cannot be told apart by what is reported, before and after the linter.
* `Compilation.read_comm`: independent inputs may be read in either order.
-/

namespace SchemaLang

/-- The names that the lines of a schema introduce. -/
def introducedBy (text : String) : Set String :=
  { name | ∃ i ∈ introductionsOf text, i.name = name }

namespace Compilation

open Compile (Settled)

/-! ## One input -/

section

variable {c c' : Compilation} {file text : String}

theorem settled_start (text : String) (c : Compilation) : Settled (introducedBy text) c {} :=
  Compile.settled_outside rfl

theorem introducedBy_of_mem :
    ∀ i ∈ introductions file (Source.logicalLines (Text.lines text.toList)) c {},
      i.name ∈ introducedBy text := by
  intro i hi
  rw [introductions_eq "" file _ {} c] at hi
  exact ⟨i, hi, rfl⟩

theorem pointless_introducedBy (text : String) : ∀ name ∈ introducedBy text, Pointless name := by
  rintro name ⟨i, hi, rfl⟩
  exact pointless_introductions (settled_start text {}) introducedBy_of_mem i hi

theorem edits_read (c : Compilation) (file text : String) :
    Edits (introducedBy text) file c (c.read file text) :=
  edits_readLogical (settled_start text c) introducedBy_of_mem

/-- The compilations agree on the names that an input introduces and on what belongs to them. -/
def AlikeFor (text : String) : Compilation → Compilation → Prop :=
  Alike (introducedBy text) { key | Owned (introducedBy text) key } id

theorem unmoved (file : String) (n : Nat) : id (⟨file, n⟩ : Position) = ⟨file, id n⟩ := rfl

/-- An input does the same to what it introduces wherever that is the same before. -/
theorem alike_read (h : AlikeFor text c c') :
    AlikeFor text (c.read file text) (c'.read file text) := by
  have hrun := (beside_readLogical (Source.logicalLines (Text.lines text.toList)) (unmoved file) h
    (settled_start text c)).2.2
  rwa [seen_eq_self introducedBy_of_mem, renumbered_id] at hrun

theorem log_read (h : AlikeFor text c c') : ∃ new, (c.read file text).log = new ++ c.log
    ∧ (c'.read file text).log = new ++ c'.log := by
  obtain ⟨new, hlog, hlog'⟩ := log_readLogical (Source.logicalLines (Text.lines text.toList))
    (unmoved file) h (settled_start text c) introducedBy_of_mem
  refine ⟨new, hlog, ?_⟩
  have hmap : new.map (Diagnostic.moved id) = new := List.map_id new
  rwa [renumbered_id, hmap] at hlog'

end

/-! ## What is reported in the end -/

/-- The same type model, the same positions, and the same diagnostics, made in whatever order. -/
structure Same (c c' : Compilation) : Prop where
  types : c'.types = c.types
  positions : c'.positions = c.positions
  log : ∀ d, d ∈ c'.log ↔ d ∈ c.log

namespace Same

variable {c c' : Compilation}

theorem diagnostics (h : Same c c') : c'.diagnostics = c.diagnostics :=
  Diagnostic.report_congr h.log

theorem errors (h : Same c c') : c'.errors = c.errors := by
  rw [Compilation.errors, h.diagnostics, Compilation.errors]

theorem finish (h : Same c c') : Same c.finish c'.finish where
  types := h.types
  positions := h.positions
  log d := by
    have hlocated : c'.located = c.located := by
      funext f
      rw [located, positionOf, h.positions, located, positionOf]
    rw [Compilation.finish, Compilation.finish, h.types, hlocated, List.mem_append,
      List.mem_append, h.log]

end Same

/-! ## Two inputs -/

section

variable {c : Compilation} {file₁ text₁ file₂ text₂ : String}

/-- An input leaves alone what another one introduces. -/
theorem alikeFor_read (h : ∀ name ∈ introducedBy text₁, name ∉ introducedBy text₂) :
    AlikeFor text₁ c (c.read file₂ text₂) where
  types name hn := (edits_read c file₂ text₂).get?_types (h name hn)
  positions key hk := by
    have hleft : ¬Owned (introducedBy text₂) key :=
      not_owned_of_disjoint (pointless_introducedBy text₁) (pointless_introducedBy text₂) h hk
    rw [(edits_read c file₂ text₂).get?_positions hleft, Option.map_id, id]

/-- Two changes of a map, each of which stays among keys of its own and does the same there whether
or not the other has been made before, may be made in either order. -/
theorem eq_of_apart {α : Type} {m m₁ m₂ m₁₂ m₂₁ : NameMap α} {keys₁ keys₂ : Set String}
    (hd : ∀ key ∈ keys₁, key ∉ keys₂)
    (h₁ : ∀ key ∉ keys₁, m₁.get? key = m.get? key) (h₂ : ∀ key ∉ keys₂, m₂.get? key = m.get? key)
    (h₁₂ : ∀ key ∉ keys₂, m₁₂.get? key = m₁.get? key)
    (h₂₁ : ∀ key ∉ keys₁, m₂₁.get? key = m₂.get? key)
    (ha₁ : ∀ key ∈ keys₁, m₂₁.get? key = m₁.get? key)
    (ha₂ : ∀ key ∈ keys₂, m₁₂.get? key = m₂.get? key) : m₂₁ = m₁₂ := by
  refine NameMap.ext_get? fun key => ?_
  by_cases hk₁ : key ∈ keys₁
  · rw [ha₁ key hk₁, h₁₂ key (hd key hk₁)]
  · rw [h₂₁ key hk₁]
    by_cases hk₂ : key ∈ keys₂
    · rw [ha₂ key hk₂]
    · rw [h₁₂ key hk₂, h₁ key hk₁, h₂ key hk₂]

theorem same_read_read (c : Compilation) (file₁ file₂ : String)
    (h : ∀ name ∈ introducedBy text₁, name ∉ introducedBy text₂) :
    Same ((c.read file₁ text₁).read file₂ text₂) ((c.read file₂ text₂).read file₁ text₁) := by
  have h' : ∀ name ∈ introducedBy text₂, name ∉ introducedBy text₁ :=
    fun name hn hn' => h name hn' hn
  have hkeys : ∀ key, Owned (introducedBy text₁) key → ¬Owned (introducedBy text₂) key :=
    fun key => not_owned_of_disjoint (pointless_introducedBy text₁) (pointless_introducedBy text₂) h
  have hfirst : AlikeFor text₁ (c.read file₁ text₁) ((c.read file₂ text₂).read file₁ text₁) :=
    alike_read (alikeFor_read h)
  have hsecond : AlikeFor text₂ (c.read file₂ text₂) ((c.read file₁ text₁).read file₂ text₂) :=
    alike_read (alikeFor_read h')
  refine ⟨?_, ?_, fun d => ?_⟩
  · exact eq_of_apart h (fun _ => (edits_read c file₁ text₁).get?_types)
      (fun _ => (edits_read c file₂ text₂).get?_types)
      (fun _ => (edits_read _ file₂ text₂).get?_types)
      (fun _ => (edits_read _ file₁ text₁).get?_types) hfirst.types hsecond.types
  · have hid : ∀ o : Option Position, o.map id = o := fun o => by rw [Option.map_id, id]
    exact eq_of_apart hkeys (fun _ => (edits_read c file₁ text₁).get?_positions)
      (fun _ => (edits_read c file₂ text₂).get?_positions)
      (fun _ => (edits_read _ file₂ text₂).get?_positions)
      (fun _ => (edits_read _ file₁ text₁).get?_positions)
      (fun key hk => (hfirst.positions key hk).trans (hid _))
      (fun key hk => (hsecond.positions key hk).trans (hid _))
  · obtain ⟨new₁, hlog₁, hlog₂₁⟩ := log_read (alikeFor_read h)
    obtain ⟨new₂, hlog₂, hlog₁₂⟩ := log_read (alikeFor_read h')
    rw [hlog₂₁, hlog₁₂, hlog₁, hlog₂]
    simp only [List.mem_append]
    exact or_left_comm

end

/-- Two inputs that introduce no name in common may be read in either order: they give the same type
model and the same diagnostics, and the same once the linter has been through the model. -/
theorem read_comm (c : Compilation) (file₁ text₁ file₂ text₂ : String)
    (h : ∀ i ∈ introductionsOf text₁, ∀ j ∈ introductionsOf text₂, i.name ≠ j.name) :
    ((c.read file₂ text₂).read file₁ text₁).types = ((c.read file₁ text₁).read file₂ text₂).types
      ∧ ((c.read file₂ text₂).read file₁ text₁).diagnostics
        = ((c.read file₁ text₁).read file₂ text₂).diagnostics
      ∧ ((c.read file₂ text₂).read file₁ text₁).errors
        = ((c.read file₁ text₁).read file₂ text₂).errors
      ∧ ((c.read file₂ text₂).read file₁ text₁).finish.diagnostics
        = ((c.read file₁ text₁).read file₂ text₂).finish.diagnostics
      ∧ ((c.read file₂ text₂).read file₁ text₁).finish.errors
        = ((c.read file₁ text₁).read file₂ text₂).finish.errors := by
  have hd : ∀ name ∈ introducedBy text₁, name ∉ introducedBy text₂ := by
    rintro name ⟨i, hi, rfl⟩ ⟨j, hj, he⟩
    exact h i hi j hj he.symm
  have hsame := same_read_read c file₁ file₂ hd
  exact ⟨hsame.types, hsame.diagnostics, hsame.errors, hsame.finish.diagnostics,
    hsame.finish.errors⟩

/-- A struct that is defined twice, with a base and a member from the other input. -/
def userSchema : String := "struct S (T)\n  E e\nstruct S (T)\n  E e\n  int t"

/-- Replaces what has been read before, and has a value twice. -/
def providerSchema : String := "struct T\n  int t\nenum E\n  v\n  v\n  \"w\" x"

/-- What has been read before both. -/
def beforeBoth : Compilation := Compilation.read "c" "struct T\n  int old\nunused" {}

/-- The inputs use and replace what has been defined elsewhere, and there are faults in all of
them. -/
theorem read_comm_entangled :
    (∀ i ∈ introductionsOf userSchema, ∀ j ∈ introductionsOf providerSchema, i.name ≠ j.name)
      ∧ ((beforeBoth.read "a" providerSchema).read "b" userSchema).types
        = ((beforeBoth.read "b" userSchema).read "a" providerSchema).types
      ∧ ((beforeBoth.read "a" providerSchema).read "b" userSchema).errors
        = ((beforeBoth.read "b" userSchema).read "a" providerSchema).errors
      ∧ ((beforeBoth.read "a" providerSchema).read "b" userSchema).finish.diagnostics
        = ((beforeBoth.read "b" userSchema).read "a" providerSchema).finish.diagnostics
      ∧ ((beforeBoth.read "a" providerSchema).read "b" userSchema).finish.errors
        = ["a:1: error: Redefinition of type 'T'", "a:5: error: Redefinition of 'E' value 'v'",
          "a:6: error: Syntax error", "b:3: error: Redefinition of type 'S'",
          "b:5: error: Redefinition of 'S' member 't'", "c:3: error: Syntax error"] := by
  have hapart : ∀ i ∈ introductionsOf userSchema, ∀ j ∈ introductionsOf providerSchema,
      i.name ≠ j.name := by decide +kernel
  obtain ⟨htypes, -, herrors, hfinished, -⟩ :=
    read_comm beforeBoth "b" userSchema "a" providerSchema hapart
  exact ⟨hapart, htypes, herrors, hfinished, by decide +kernel⟩

end Compilation

end SchemaLang
