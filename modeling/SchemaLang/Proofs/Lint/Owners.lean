import SchemaLang.Proofs.Lint.Findings
import SchemaLang.Proofs.Lint.Inheritance

/-!
# The types that findings are about

Most checks name the type under which a definition stands.  Those of the members of a struct name
the struct as it names itself, and those of an action's sections the structs that the sections stand
for, which need not be the types that the sections name: aliases are followed.  Where definitions
stand under the names that they give themselves, it is a type of the model in every case.

* `Lint.owner_of_definition`: the types that the findings on a definition are about.
* `Types.contains_of_lint`: a finding is about a type of the model.
-/

namespace SchemaLang

variable {types : Types}

namespace Lint

/-- The members of a section belong to a struct by the name that it gives itself. -/
theorem owner_of_sectionMembers {type : String} {m : String × String}
    (h : m ∈ sectionMembers types type) : m.2 ∈ types.ownNames := by
  rw [sectionMembers] at h
  split at h
  · exact absurd h List.not_mem_nil
  · next s hs =>
    simp only at h
    split at h
    · exact absurd h List.not_mem_nil
    · obtain ⟨member, -, rfl⟩ := List.mem_map.1 h
      exact Heritage.name_mem_ownNames Heritage.named_struct hs

/-- The findings on the members of a struct name the struct as it names itself. -/
theorem type_of_struct {key : String} {s : Struct} (hn : s.name = key) :
    ∀ f ∈ struct types key s, f.type = key :=
  forall_struct (fun _ => rfl) (fun _ => rfl) rfl (fun _ _ _ _ => hn)

theorem type_of_enum {key : String} {e : Enum} : ∀ f ∈ enum types key e, f.type = key :=
  forall_enum (fun _ => rfl) (fun _ => rfl) rfl

theorem type_of_typedef {key : String} {t : Typedef} : ∀ f ∈ typedef types key t, f.type = key :=
  forall_typedef rfl (fun _ _ _ => rfl)

theorem owner_of_action {key : String} {a : Action} :
    ∀ f ∈ action types key a, f.type = key ∨ f.type ∈ types.ownNames :=
  forall_action (fun _ _ _ => .inl rfl) (fun _ _ hm _ => .inr (owner_of_sectionMembers hm))

theorem type_of_consistency {key : String} {d : Definition} :
    ∀ f ∈ consistency key d, f.type = key :=
  forall_consistency rfl

/-- A finding on a definition is about the definition or about one that gives itself the name. -/
theorem owner_of_definition {key : String} {d : Definition} (hn : d.name = key) {f : Finding}
    (h : f ∈ definition types key d) : f.type = key ∨ f.type ∈ types.ownNames := by
  rw [definition.eq_def, List.mem_append] at h
  rcases h with h | h
  · exact .inl (type_of_consistency f h)
  · cases d with
    | struct s => exact .inl (type_of_struct hn f h)
    | enum e => exact .inl (type_of_enum f h)
    | typedef t => exact .inl (type_of_typedef f h)
    | action a => exact owner_of_action f h

end Lint

/-! ## Type models -/

namespace Types

theorem contains_of_ownNames (hn : ∀ key d, types.get? key = some d → d.name = key)
    {name : String} (h : name ∈ types.ownNames) : types.contains name = true := by
  obtain ⟨⟨key, d⟩, he, rfl⟩ := List.mem_map.1 (List.mem_eraseDups.1 h)
  have hd := NameMap.get?_eq_some_iff.2 he
  rw [hn key d hd]
  exact NameMap.contains_of_get? hd

/-- Where definitions stand under their own names, a finding is about a type of the model. -/
theorem contains_of_lint (hn : ∀ key d, types.get? key = some d → d.name = key) {f : Finding}
    (h : f ∈ types.lint) : types.contains f.type = true := by
  obtain ⟨⟨key, d⟩, he, h⟩ := List.mem_flatMap.1 h
  have hd := NameMap.get?_eq_some_iff.2 he
  rcases Lint.owner_of_definition (hn key d hd) h with rfl | ho
  · exact NameMap.contains_of_get? hd
  · exact contains_of_ownNames hn ho

end Types

end SchemaLang
