import SchemaLang.Proofs.Alias.Cycle
import SchemaLang.Proofs.Lint
import SchemaLang.Proofs.Lint.Findings
import SchemaLang.Proofs.Lint.Nesting

/-!
# Finding aliases that come round

Only the check of a typedef speaks of circular typedefs, and it looks no further than at what the
target stands for: a typedef there means that the chain has no end.

A chain that comes round through an array or a dict is another matter.  It ends, in the array or the
dict, but there is no end to what stands inside, and a linter that does not come to an end reports
nothing at all, not even the circular typedefs that it has met before.

* `Types.Resolves`: what it means that a type stands for another one, whether its chain ends or not.
* `Lint.mem_circularTypedef_iff`: the findings on circular typedefs.
* `aliases_exact`: what types stand for, when the linter comes to an end, and what it then reports.
* `exists_unreported`: a circular typedef that is not reported.
-/

namespace SchemaLang

variable {types : Types}

namespace Types

/-- What has to be true of what a type stands for. -/
structure Resolves (types : Types) (ty found : TypeRef) : Prop where
  /-- Followed with a growing record, empty at first, aliases come to an end, and to one. -/
  chases : ∀ target, types.Chases [] ty target ↔ target = found
  /-- A chain that ends is followed to its end. -/
  ends : ∀ target, types.EndsIn ty target → found = target
  /-- One that does not is followed to a typedef that it comes back to. -/
  cycle : (¬∃ target, types.EndsIn ty target) →
    ∃ name t, found = .user name ∧ types.get? name = some (.typedef t)
      ∧ Relation.ReflTransGen types.Follows ty (.user name)
      ∧ Relation.TransGen types.Follows (.user name) (.user name)
  again : types.effective found = found

theorem resolves_effective (ty : TypeRef) : types.Resolves ty (types.effective ty) where
  chases _ := chases_iff (.start (NameMap.nodup_names types))
  ends _ := effective_of_endsIn
  cycle := exists_cycle
  again := effective_effective ty

/-- The chain of a typedef goes on with its target. -/
theorem endsIn_typedef_iff {name : String} {t : Typedef} {target : TypeRef}
    (hd : types.get? name = some (.typedef t)) :
    types.EndsIn (.user name) target ↔ types.EndsIn t.type target := by
  constructor
  · rintro ⟨hf, ht⟩
    rcases Relation.ReflTransGen.cases_head hf with rfl | ⟨_, hs, hr⟩
    · simp [isTypedef_user hd] at ht
    · cases hs with
      | typedef hd' =>
        cases hd.symm.trans hd'
        exact ⟨hr, ht⟩
  · rintro ⟨hf, ht⟩
    exact ⟨.head (.typedef hd) hf, ht⟩

end Types

/-! ## Findings of other kinds -/

theorem Site.circularTypedef_not_mem_problems (s : Site) :
    .circularTypedef ∉ s.problems types := by
  rw [problems, List.mem_append, List.mem_append, not_or, not_or]
  refine ⟨⟨?_, ?_⟩, ?_⟩
  · unfold referenceProblems
    split
    · split <;> simp
    · simp
  · unfold keyProblems
    split
    · split <;> simp
    · simp
  · unfold attributeProblems
    split <;> simp

namespace Lint

theorem problem_ne_of_use {type : String} {member : Option String} {ty : TypeRef}
    {attr : Option Attributes} :
    ∀ f ∈ use types type member ty attr, f.problem ≠ .circularTypedef :=
  forall_use fun site _ hp => ne_of_mem_of_not_mem hp site.circularTypedef_not_mem_problems

theorem problem_ne_of_struct {key : String} {s : Struct} :
    ∀ f ∈ struct types key s, f.problem ≠ .circularTypedef :=
  forall_struct (by simp) (by simp) (by simp)
    fun _ site _ hp => ne_of_mem_of_not_mem hp site.circularTypedef_not_mem_problems

theorem problem_ne_of_enum {key : String} {e : Enum} :
    ∀ f ∈ enum types key e, f.problem ≠ .circularTypedef :=
  forall_enum (by simp) (by simp) (by simp)

theorem problem_ne_of_action {key : String} {a : Action} :
    ∀ f ∈ action types key a, f.problem ≠ .circularTypedef :=
  forall_action (fun site _ hp => ne_of_mem_of_not_mem hp site.circularTypedef_not_mem_problems)
    (by simp)

theorem problem_ne_of_consistency {key : String} {d : Definition} :
    ∀ f ∈ consistency key d, f.problem ≠ .circularTypedef :=
  forall_consistency (by simp)

/-! ## Findings on circular typedefs -/

theorem mem_definition_iff {key : String} {d : Definition} {f : Finding}
    (hf : f.problem = .circularTypedef) :
    f ∈ definition types key d
      ↔ f = { type := key, problem := .circularTypedef }
        ∧ ∃ t, d = .typedef t ∧ types.isCircular t.type = true := by
  rw [definition.eq_def, List.mem_append]
  constructor
  · rintro (h | h)
    · exact absurd hf (problem_ne_of_consistency f h)
    · cases d with
      | struct s => exact absurd hf (problem_ne_of_struct f h)
      | enum e => exact absurd hf (problem_ne_of_enum f h)
      | action a => exact absurd hf (problem_ne_of_action f h)
      | typedef t =>
        simp only [typedef, List.mem_append] at h
        rcases h with h | h
        · split at h
          · next hc => exact ⟨List.mem_singleton.1 h, t, rfl, hc⟩
          · simp at h
        · exact absurd hf (problem_ne_of_use f h)
  · rintro ⟨rfl, t, rfl, hc⟩
    simp [typedef, hc]

theorem mem_circularTypedef_iff {key : String} :
    { type := key, problem := .circularTypedef : Finding } ∈ types.lint
      ↔ (∃ t, types.get? key = some (.typedef t))
        ∧ ¬∃ target, types.EndsIn (.user key) target := by
  rw [Types.lint, List.mem_flatMap]
  constructor
  · rintro ⟨⟨name, d⟩, he, h⟩
    obtain ⟨hkey, t, rfl, hc⟩ := (mem_definition_iff rfl).1 h
    obtain rfl : key = name := congrArg Finding.type hkey
    have hd : types.get? key = some (.typedef t) := NameMap.get?_eq_some_iff.2 he
    simp only [Types.endsIn_typedef_iff hd]
    exact ⟨⟨t, hd⟩, Types.isCircular_iff_not_endsIn.1 hc⟩
  · rintro ⟨⟨t, hd⟩, h⟩
    simp only [Types.endsIn_typedef_iff hd] at h
    refine ⟨(key, .typedef t), NameMap.get?_eq_some_iff.1 hd, ?_⟩
    exact (mem_definition_iff rfl).2 ⟨rfl, t, rfl, Types.isCircular_iff_not_endsIn.2 h⟩

/-- All findings on circular typedefs are of one form. -/
theorem eq_of_circularTypedef {f : Finding} (h : f ∈ types.lint)
    (hf : f.problem = .circularTypedef) : f = { type := f.type, problem := .circularTypedef } := by
  obtain ⟨⟨name, d⟩, -, h⟩ := List.mem_flatMap.1 h
  obtain ⟨rfl, -⟩ := (mem_definition_iff hf).1 h
  rfl

end Lint

/-- The linter comes to an end, and one of its findings is a problem of a type. -/
def Types.Reports (types : Types) (type : String) (problem : Problem) : Prop :=
  ∃ findings, types.Lints findings ∧ ∃ f ∈ findings, f.type = type ∧ f.problem = problem

/-- What a type stands for tells a chain of aliases that ends from one that comes round.  The linter
comes to an end unless a typedef stands inside itself, and then reports the typedefs whose chains
come round. -/
theorem aliases_exact (types : Types) :
    (∀ ty, types.Resolves ty (types.effective ty))
      ∧ ((∃ findings, types.Lints findings) ↔ ¬types.SelfContaining)
      ∧ ∀ key, types.Reports key .circularTypedef
          ↔ ¬types.SelfContaining ∧ (∃ t, types.get? key = some (.typedef t))
            ∧ ¬∃ target, types.EndsIn (.user key) target := by
  refine ⟨Types.resolves_effective, ?_, ?_⟩
  · simp only [Types.lints_iff, exists_and_left, exists_eq, and_true]
  · intro key
    rw [← Lint.mem_circularTypedef_iff]
    constructor
    · rintro ⟨findings, hl, f, hm, rfl, hf⟩
      obtain ⟨hs, rfl⟩ := Types.lints_iff.1 hl
      rw [← Lint.eq_of_circularTypedef hm hf]
      exact ⟨hs, hm⟩
    · rintro ⟨hs, hm⟩
      exact ⟨_, Types.lints_iff.2 ⟨hs, rfl⟩, _, hm, rfl, rfl⟩

/-- An alias of itself, and lists of such lists. -/
def Types.endless : Types :=
  .ofList
    [("A", .typedef { name := "A", type := .user "A" }),
      ("T", .typedef { name := "T", type := .array (.user "T") none })]

theorem Types.selfContaining_endless : Types.endless.SelfContaining := by
  have hd : Types.endless.get? "T"
      = some (.typedef { name := "T", type := .array (.user "T") none }) := rfl
  exact ⟨"T", _, hd, .single ⟨_, .element, effective_of_leads (.step hd (.here rfl))⟩⟩

/-- The chain of `A` comes round, but the linter does not get to report it. -/
theorem exists_unreported :
    ¬∀ (types : Types) (key : String), types.Reports key .circularTypedef
      ↔ (∃ t, types.get? key = some (.typedef t)) ∧ ¬∃ target, types.EndsIn (.user key) target := by
  intro h
  have hcircular : Types.endless.isCircular (.user "A") = true := by decide +kernel
  obtain ⟨findings, hl, -⟩ := (h Types.endless "A").2
    ⟨⟨_, rfl⟩, Types.isCircular_iff_not_endsIn.1 hcircular⟩
  exact (Types.lints_iff.1 hl).1 Types.selfContaining_endless

end SchemaLang
