import Mathlib.Data.List.Nodup
import SchemaLang.Lint
import SchemaLang.Proofs.Alias
import SchemaLang.Proofs.Inheritance

/-!
# Types in which the linter finds nothing

`Types.Sound` is what the readings of values rest on: inheritance does not come round and lists no
member twice, and the keys of dicts are texts.  Types without findings are sound.

* `sound_of_lint`: no findings, no fault.
* `keysSound_of_sitesWith`: the keys of the dicts inside a type, from its sites.
-/

namespace SchemaLang

/-- The dicts inside a type have keys that are texts, as far as aliases are not followed. -/
def KeysSound (types : Types) : TypeRef → Prop
  | .array element _ => KeysSound types element
  | .dict value _ none _ => KeysSound types value
  | .dict value _ (some key) _ =>
    Site.isKeyType types (types.effective key) = true ∧ KeysSound types value
  | _ => True

structure Types.Sound (types : Types) : Prop where
  structWalk : ∀ {name : String} {s : Struct}, types.get? name = some (.struct s) →
    (types.walk Struct.heritage s).repeats = false
  enumWalk : ∀ {name : String} {e : Enum}, types.get? name = some (.enum e) →
    (types.walk Enum.heritage e).repeats = false
  nodup : ∀ {name : String} {s : Struct}, types.get? name = some (.struct s) →
    ((types.members s).map Member.name).Nodup
  memberKeys : ∀ {name : String} {s : Struct} {m : Member},
    types.get? name = some (.struct s) → m ∈ types.members s → KeysSound types m.type
  typedefKeys : ∀ {name : String} {t : Typedef}, types.get? name = some (.typedef t) →
    KeysSound types t.type

variable {types : Types}

/-! ## Sites -/

theorem Types.eq_user_of_chase {unseen : List String} {ty : TypeRef}
    (h : (types.chase unseen ty).1 ≠ []) : ∃ name, ty = .user name := by
  cases ty with
  | user name => exact ⟨name, rfl⟩
  | _ =>
    rw [chase] at h
    · exact absurd rfl h
    · simp

/-- An inner type is listed with its own sites, unless it is a name and its alias is followed. -/
theorem keysSound_of_chase {unseen : List String} {ty : TypeRef} {own : List Site}
    {followed : List (String × Typedef) → TypeRef → List Site}
    (ih : (∀ s ∈ own, s.keyProblems types = []) → KeysSound types ty)
    (h : ∀ s ∈ (match types.chase unseen ty with
      | ([], _) => own
      | (aliases, target) => followed aliases target), s.keyProblems types = []) :
    KeysSound types ty := by
  split at h
  · exact ih h
  · next aliases target hne hc =>
    have hchase : (types.chase unseen ty).1 ≠ [] := by
      rw [hc]
      exact hne
    obtain ⟨name, rfl⟩ := Types.eq_user_of_chase hchase
    exact trivial

theorem keysSound_of_sitesWith {unseen : List String}
    {follow : List String → TypeRef → Option Attributes → List Site} {ty : TypeRef}
    {attr : Option Attributes}
    (h : ∀ s ∈ types.sitesWith unseen follow ty attr, s.keyProblems types = []) :
    KeysSound types ty := by
  fun_induction Types.sitesWith types unseen follow ty attr with
  | case1 element elementAttr attr ih =>
    rw [KeysSound]
    exact keysSound_of_chase ih fun s hs => h s (List.mem_append_left _ hs)
  | case2 value valueAttr keyAttr attr ih =>
    rw [KeysSound]
    exact keysSound_of_chase ih fun s hs => h s (List.mem_append_left _ hs)
  | case3 value valueAttr key keyAttr attr ihv _ =>
    have hd := h ⟨.dict value valueAttr (some key) keyAttr, attr⟩ (by simp)
    rw [KeysSound]
    refine ⟨?_, keysSound_of_chase ihv fun s hs =>
      h s (List.mem_append_left _ (List.mem_append_left _ hs))⟩
    simpa [Site.keyProblems] using hd
  | case4 ty attr ha hd hk =>
    cases ty with
    | builtin b => exact trivial
    | user name => exact trivial
    | array element elementAttr => exact (ha element elementAttr rfl).elim
    | dict value valueAttr key keyAttr =>
      cases key with
      | none => exact (hd value valueAttr keyAttr rfl).elim
      | some key => exact (hk value valueAttr key keyAttr rfl).elim

theorem keysSound_of_use {type : String} {member : Option String} {ty : TypeRef}
    {attr : Option Attributes} (h : Lint.use types type member ty attr = []) :
    KeysSound types ty := by
  have hp : ∀ s ∈ types.sites ty attr, s.problems types = [] := fun s hs =>
    List.map_eq_nil_iff.1 (List.flatMap_eq_nil_iff.1 h s hs)
  have hk : ∀ s ∈ types.sites ty attr, s.keyProblems types = [] := fun s hs => by
    have := hp s hs
    rw [Site.problems, List.append_eq_nil_iff, List.append_eq_nil_iff] at this
    exact this.1.2
  rw [Types.sites] at hk
  cases hc : types.size with
  | zero =>
    rw [hc, Types.sitesFor] at hk
    exact keysSound_of_sitesWith hk
  | succ count =>
    rw [hc, Types.sitesFor] at hk
    exact keysSound_of_sitesWith hk

/-! ## Findings -/

theorem not_of_ite_eq_nil {α : Type} {p : Prop} [Decidable p] {a : α}
    (h : (if p then [a] else []) = []) : ¬p := by
  intro hp
  rw [if_pos hp] at h
  simp at h

theorem Lint.nodup_of_items {α : Type} {kind : BaseKind} {key : String} {name : α → String}
    {further : α → List Finding} {earlier : List String} {list : List α}
    (h : items kind key name further earlier list = []) :
    (list.map name).Nodup ∧ (∀ a ∈ list, name a ∉ earlier) ∧ ∀ a ∈ list, further a = [] := by
  induction list generalizing earlier with
  | nil => simp
  | cons item rest ih =>
    rw [items, List.append_eq_nil_iff, List.append_eq_nil_iff] at h
    obtain ⟨⟨hn, hf⟩, hr⟩ := h
    obtain ⟨hnd, he, hfr⟩ := ih hr
    refine ⟨List.nodup_cons.2 ⟨fun hm => ?_, hnd⟩,
      List.forall_mem_cons.2 ⟨not_of_ite_eq_nil hn, ?_⟩, List.forall_mem_cons.2 ⟨hf, hfr⟩⟩
    · obtain ⟨a, ha, hna⟩ := List.mem_map.1 hm
      exact he a ha (hna ▸ List.mem_cons_self)
    · exact fun a ha hm => he a ha (List.mem_cons_of_mem _ hm)

theorem Lint.repeats_of_circularBase {α : Type} {key : String} {walk : Walk α}
    (h : circularBase key walk = []) : walk.repeats = false :=
  Bool.eq_false_iff.2 (not_of_ite_eq_nil h)

theorem Types.definition_of_lint (h : types.lint = []) {name : String} {d : Definition}
    (hd : types.get? name = some d) : Lint.definition types name d = [] :=
  List.flatMap_eq_nil_iff.1 h (name, d) (NameMap.get?_eq_some_iff.1 hd)

theorem Types.struct_of_lint (h : types.lint = []) {name : String} {s : Struct}
    (hd : types.get? name = some (.struct s)) :
    (types.walk Struct.heritage s).repeats = false
      ∧ ((types.members s).map Member.name).Nodup
      ∧ ∀ m ∈ types.members s, KeysSound types m.type := by
  have hl := definition_of_lint h hd
  simp only [Lint.definition, Lint.struct, List.append_eq_nil_iff] at hl
  obtain ⟨-, ⟨-, hi⟩, hc⟩ := hl
  obtain ⟨hn, -, hu⟩ := Lint.nodup_of_items hi
  exact ⟨Lint.repeats_of_circularBase hc, hn, fun m hm => keysSound_of_use (hu m hm)⟩

theorem Types.sound_of_lint (h : types.lint = []) : types.Sound where
  structWalk hd := (struct_of_lint h hd).1
  enumWalk hd := by
    have hl := definition_of_lint h hd
    simp only [Lint.definition, Lint.enum, List.append_eq_nil_iff] at hl
    exact Lint.repeats_of_circularBase hl.2.2
  nodup hd := (struct_of_lint h hd).2.1
  memberKeys hd hm := (struct_of_lint h hd).2.2 _ hm
  typedefKeys hd := by
    have hl := definition_of_lint h hd
    simp only [Lint.definition, Lint.typedef, List.append_eq_nil_iff] at hl
    exact keysSound_of_use hl.2.2

/-! ## Sample types -/

/-- Members with a key type, an element type and an inherited one. -/
def Struct.sample : Struct where
  name := "Tally"
  bases := some ["Dated"]
  members := some
    [{ name := "counts"
       type := .dict (.user "Count") (some { nullable := true }) (some (.user "Color"))
        (some { nullable := true }) },
      { name := "notes", type := .array (.builtin .string) none, optional := true }]

/-- Types with a definition of every kind that has values. -/
def Types.sample : Types :=
  .ofList
    [("Color", .enum { name := "Color", values := some [{ name := "green" }, { name := "red" }] }),
      ("Count", .typedef
        { name := "Count", type := .builtin .int, attr := some { nullable := true } }),
      ("Dated", .struct
        { name := "Dated", members := some [{ name := "day", type := .builtin .date }] }),
      ("Tally", .struct Struct.sample)]

theorem Types.lint_sample : sample.lint = [] := by decide +kernel

end SchemaLang
