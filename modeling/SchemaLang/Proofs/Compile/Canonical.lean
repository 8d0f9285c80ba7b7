import SchemaLang.Proofs.Compile.Session
import SchemaLang.Proofs.Source.Meaning

/-!
# What is compiled is canonical

A line puts one definition under the name that the definition gives itself, or adds an item to the
definition that is open, which then has items.  A section comes with two changes, to its action and
to its type; the type can be thought of as put first, since the two names differ, and the action is
then changed to name a type that is there.

* `Compile.canonical_apply`, `Compile.canonical_step`: every line keeps a model canonical.
* `Compilation.canonical_after`: so models are canonical at any time, whatever has been read.
* `filled_and_lint_of_compile`: lists in what compiles are not empty.
-/

namespace SchemaLang

namespace Compile

open Source (DefinitionKind Line TypeExpr)

variable {pos : Position} {c : Compilation} {k : Cursor}

/-! ## Definitions that a line starts -/

theorem doc?_ne_nil (k : Cursor) : k.doc? ≠ some [] := by
  rw [Cursor.doc?]
  split
  · simp
  · next h =>
    intro he
    exact h (List.isEmpty_iff.2 (Option.some.inj he))

theorem canonical_newDefinition {kind : DefinitionKind} {name : String}
    {bases : Option (List String)} (h : bases ≠ some []) :
    (newDefinition kind name bases k).Canonical := by
  have hdoc := doc?_ne_nil k
  cases kind with
  | struct => exact ⟨hdoc, h, by simp, by simp⟩
  | union => exact ⟨hdoc, h, by simp, by simp⟩
  | enum => exact ⟨hdoc, h, by simp, by simp⟩

theorem canonical_sectionDefinition {s : Section} {name : String} {bases : Option (List String)}
    (h : bases ≠ some []) : (sectionDefinition s name bases).Canonical := by
  cases s <;> exact ⟨by simp, h, by simp, by simp⟩

/-- A definition without sections is put under its name. -/
theorem canonical_define {name : String} {d : Definition} {b : Bool} {fault : Fault}
    (hc : c.types.Canonical) (hn : d.name = name) (hd : d.Canonical)
    (hs : ∀ a, d = .action a → ∀ s, a.type? s = none) :
    ((c.reportIf b pos fault).define pos name d).types.Canonical := by
  rw [Compilation.types_define, Compilation.types_reportIf]
  refine hc.insert hn hd ?_
  intro a ha s type ht
  rw [hs a ha s] at ht
  exact absurd ht (by simp)

/-! ## Sections -/

/-- The name of a section type is longer than the name of its action. -/
theorem sectionTypeName_ne (a : Action) (s : Section) : a.name ≠ sectionTypeName a s := by
  intro h
  have hlength := congrArg String.length h
  simp only [sectionTypeName, String.length_append] at hlength
  have hbar : "_".length = 1 := by decide
  omega

theorem canonical_section {s : Section} {bases : Option (List String)} (hc : c.types.Canonical)
    (hb : bases ≠ some []) : (sectionOf pos s bases c k).1.types.Canonical := by
  rw [sectionOf]
  split
  · exact hc
  · next key a h =>
    have hget := action?_eq_some_iff.1 (action?_of_open h).2
    obtain rfl : a.name = key := hc.name key _ hget
    have hold : a.Canonical := hc.definition _ _ hget
    simp only [Compilation.types_define, Compilation.types_reportIf, Compilation.types_update]
    rw [NameMap.insert_comm (sectionTypeName_ne a s)]
    have htype := hc.insert (d := sectionDefinition s (sectionTypeName a s) bases)
      (name_sectionDefinition s _ bases) (canonical_sectionDefinition hb)
      (fun b hd => absurd hd (sectionDefinition_ne_action s _ bases b))
    refine htype.insert (name_setType a s _) ?_ ?_
    · cases s <;> exact ⟨hold.doc, hold.urls⟩
    · rintro b hb' t type ht
      obtain rfl := Definition.action.inj hb'
      rw [Action.type?_setType] at ht
      rw [name_setType, NameMap.contains_insert]
      split at ht
      · next hst =>
        obtain rfl := hst
        obtain rfl := Option.some.inj ht
        exact ⟨rfl, .inl rfl⟩
      · obtain ⟨hname, hthere⟩ := hc.section _ a hget t type ht
        exact ⟨hname, .inr hthere⟩

/-! ## Items -/

theorem canonical_value {name : String} (hc : c.types.Canonical) :
    (value pos name c k).1.types.Canonical := by
  rw [value]
  simp only
  split
  · exact hc
  · next key e he =>
    have hget := get?_of_open he fun _ _ => Definition.eq_of_enum?
    have hname : e.name = key := hc.name key _ hget
    have hold : e.Canonical := hc.definition key _ hget
    rw [Compilation.types_locate, Compilation.types_update]
    refine hc.insert hname ⟨hold.doc, hold.bases, by simp, ?_⟩ (by simp)
    intro v hm
    rcases List.mem_append.1 hm with hm | hm
    · exact hold.value v hm
    · obtain rfl := List.mem_singleton.1 hm
      exact doc?_ne_nil k

theorem canonical_member {m : Member} (hc : c.types.Canonical) (hm : m.Canonical) :
    (member pos m c k).1.types.Canonical := by
  rw [member]
  simp only
  split
  · exact hc
  · next key s hs =>
    have hget := get?_of_open hs fun _ _ => Definition.eq_of_struct?
    have hname : s.name = key := hc.name key _ hget
    have hold : s.Canonical := hc.definition key _ hget
    rw [Compilation.types_locate, Compilation.types_update]
    refine hc.insert hname ⟨hold.doc, hold.bases, by simp, ?_⟩ (by simp)
    intro other ho
    rcases List.mem_append.1 ho with ho | ho
    · exact hold.member other ho
    · obtain rfl := List.mem_singleton.1 ho
      exact hm

theorem canonical_url {method : String} {path : Option String} (hc : c.types.Canonical) :
    (url pos method path c k).1.types.Canonical := by
  rw [url]
  split
  · next key listed _ =>
    simp only
    split
    · rwa [Compilation.types_reportIf]
    · next a ha =>
      have hget := action?_eq_some_iff.1 ha
      rw [Compilation.types_reportIf] at hget
      have hname : a.name = key := hc.name key _ hget
      have hold : a.Canonical := hc.definition key _ hget
      rw [Compilation.types_update, Compilation.types_reportIf]
      refine hc.insert hname ⟨hold.doc, by simp⟩ ?_
      rintro b hb s type ht
      obtain rfl := Definition.action.inj hb
      exact hc.section key a hget s type (by cases s <;> exact ht)
  · exact hc

/-! ## Lines -/

/-- Every line keeps a model canonical. -/
theorem canonical_apply {line : Line} (hc : c.types.Canonical) (hl : line.Parsed) :
    (apply pos line c k).1.types.Canonical := by
  cases hl with
  | comment doc => exact hc
  | group name => exact hc
  | action hn =>
    rw [apply, action]
    refine canonical_define hc rfl ?_ ?_
    · exact ⟨doc?_ne_nil k, by simp⟩
    · intro a ha s
      obtain rfl := Definition.action.inj ha
      cases s <;> rfl
  | @definition _ _ _ kind name bases _ hb =>
    have hs : ∀ a, newDefinition kind name bases k ≠ .action a := by
      intro a
      cases kind <;> exact Definition.noConfusion
    refine canonical_define hc (name_newDefinition kind name bases) ?_ ?_
    · exact canonical_newDefinition (Line.bases?_ne_nil hb)
    · exact fun a ha => absurd ha (hs a)
  | «section» s hb => exact canonical_section hc (Line.bases?_ne_nil hb)
  | urls =>
    rw [apply, urls]
    split
    · exact hc
    · rwa [Compilation.types_reportIf]
  | value name => exact canonical_value hc
  | member optional ht =>
    rw [apply]
    split
    · exact hc
    · next htype =>
      obtain ⟨htype, hattr⟩ := TypeExpr.canonical_type? (Line.comparable_typed? ht) htype
      exact canonical_member hc ⟨doc?_ne_nil k, htype, hattr⟩
  | url method path => exact canonical_url hc
  | typedef ht =>
    rw [apply]
    split
    · exact hc
    · next htype =>
      obtain ⟨htype, hattr⟩ := TypeExpr.canonical_type? (Line.comparable_typed? ht) htype
      rw [typedef]
      refine canonical_define hc rfl ?_ ?_
      · exact ⟨doc?_ne_nil k, htype, hattr⟩
      · exact fun a ha => absurd ha Definition.noConfusion

theorem canonical_step (pos : Position) (text : List Char) (c : Compilation) (k : Cursor)
    (hc : c.types.Canonical) : (step pos text c k).1.types.Canonical := by
  rw [step]
  split
  · rwa [Compilation.types_report]
  · next line h => exact canonical_apply hc (Line.parsed_of_parse? h)

end Compile

/-- What compiles has no empty lists, and the linter finds nothing in it. -/
theorem filled_and_lint_of_compile {text : String} {types : Types} (h : compile text = .ok types) :
    types.Filled ∧ types.lint = [] := by
  obtain ⟨rfl, hl, -⟩ := compile_eq_ok_iff.1 h
  have hc : (Compilation.read "" text {}).types.Canonical :=
    Compilation.readLogical_induct Compile.canonical_step .empty
  exact ⟨hc.filled, hl⟩

/-- Whatever is read, and whether it is wrong or not, models are canonical. -/
theorem Compilation.canonical_after (requests : List Request) :
    (Compilation.after requests).types.Canonical :=
  after_induct .empty Compile.canonical_step (fun _ h => h) requests

end SchemaLang
