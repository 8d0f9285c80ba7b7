import SchemaLang.Proofs.Validate.Paths

/-!
# The same value in another place

The validator is told where a value stands so that a failure can say it, and looks at it for nothing
else.  `Moves` says this of a part of the validator, as a function of the path: what comes of it
below some path is what comes of it at the root, with that path put in front of the path of a
failure.  It is kept from step to step and through containers, where paths only grow at their ends.

* `Validate.moves_value`: where a value stands does not matter to what it is read as.
* `Path.text?_append`: segments are joined to the text of a path one by one.
* `validate_elsewhere`: what a value comes to in two places.
-/

namespace SchemaLang

/-- What is reported when the value stands below a path. -/
def Failure.under (path : Path) : Failure → Failure
  | .unknownType name => .unknownType name
  | .invalid v way expected cause => .invalid v (path ++ way) expected cause
  | .missingMember way => .missingMember (path ++ way)
  | .unknownMember way => .unknownMember (path ++ way)

namespace Validate

/-! ## Steps -/

section

variable {α β : Type}

/-- Putting a path in front changes nothing but where a failure lies. -/
def Moves (x : Path → Except Failure α) : Prop :=
  ∀ path way, x (path ++ way) = (x way).mapError (Failure.under path)

theorem moves_ok (a : α) : Moves fun _ => .ok a := fun _ _ => rfl

theorem moves_refuse (cause : Cause) (v : Value) (ty : TypeRef) :
    Moves (refuse (α := α) cause v ty) := fun _ _ => rfl

theorem Moves.bind {x : Path → Except Failure α} {f : α → Path → Except Failure β} (hx : Moves x)
    (hf : ∀ a, Moves (f a)) : Moves fun path => x path >>= fun a => f a path := by
  intro path way
  dsimp only
  rw [hx path way]
  cases x way with
  | error e => rfl
  | ok a => exact hf a path way

theorem Moves.map {x : Path → Except Failure α} (hx : Moves x) (f : α → β) :
    Moves fun path => (x path).map f := by
  intro path way
  dsimp only
  rw [hx path way]
  cases x way <;> rfl

theorem Moves.ite {p : Prop} [Decidable p] {x y : Path → Except Failure α} (hx : Moves x)
    (hy : Moves y) : Moves fun path => if p then x path else y path := by
  split
  · exact hx
  · exact hy

/-- What stands in a container moves with it. -/
theorem Moves.below {x : Path → Except Failure α} (hx : Moves x) (segment : String) :
    Moves fun path => x (path ++ [segment]) := by
  intro path way
  dsimp only
  rw [List.append_assoc]
  exact hx path (way ++ [segment])

theorem moves_missing (segment : String) :
    Moves fun path => (.error (.missingMember (path ++ [segment])) : Except Failure α) := by
  intro path way
  dsimp only
  rw [List.append_assoc]
  rfl

theorem moves_unknown (segment : String) :
    Moves fun path => (.error (.unknownMember (path ++ [segment])) : Except Failure α) := by
  intro path way
  dsimp only
  rw [List.append_assoc]
  rfl

end

/-! ## Sites and aliases -/

variable {types : Types}

theorem moves_checkAttributes (ty : TypeRef) (attr : Option Attributes) (w : Value) :
    Moves (checkAttributes ty attr w) := by
  intro path way
  rw [checkAttributes, checkAttributes]
  split
  · split <;> rfl
  · split <;> rfl

theorem moves_site {x : Path → Except Failure Value} (hx : Moves x) (isNull : Bool) (ty : TypeRef)
    (attr : Option Attributes) :
    Moves fun path => (do
      let w ← if isNull then .ok .null else x path
      checkAttributes ty attr w path
      pure w) := by
  have hc : ∀ w, Moves fun path => checkAttributes ty attr w path >>= fun _ => .ok w :=
    fun w => (moves_checkAttributes ty attr w).bind fun _ => moves_ok w
  cases isNull with
  | true => exact (moves_ok Value.null).bind hc
  | false => exact hx.bind hc

theorem moves_element {v : Value} {check : Check} {ty : TypeRef} (h : Moves (check ty))
    (attr : Option Attributes) : Moves (element v check ty attr) := moves_site h _ ty attr

theorem moves_alongAliases {v : Value} {target : Path → Unit → Except Failure Value}
    (h : Moves fun path => target path ()) (aliases : List (String × Typedef)) :
    Moves fun path => alongAliases v path (target path) aliases := by
  induction aliases with
  | nil => exact h
  | cons a aliases ih => exact moves_site ih _ (.user a.1) a.2.attr

theorem moves_resolved {v : Value} {ty : TypeRef} {target : Path → TypeRef → Except Failure Value}
    (h : ∀ inner, Moves fun path => target path inner) :
    Moves fun path => resolved types v ty path (target path) := by
  intro path way
  simp only [resolved]
  split
  · rfl
  · exact @moves_alongAliases v (fun path _ => target path (types.resolve ty).2) (h _) _ path way

/-! ## Containers -/

theorem moves_presentMembers {s : Struct} {checks : Checks}
    (h : ∀ key v check, Entries.get? key checks = some (v, check) → ∀ ty, Moves (check ty))
    (members : List Member) : Moves fun path => presentMembers s path checks members := by
  induction members with
  | nil => exact moves_ok []
  | cons m members ih =>
    intro path way
    simp only [presentMembers]
    cases hg : Entries.get? (.text m.name) checks with
    | none =>
      dsimp only
      split
      · exact moves_missing m.name path way
      · exact ih path way
    | some e =>
      obtain ⟨v, check⟩ := e
      have hv := (moves_element (v := v) (h _ v check hg m.type) m.attr).below m.name
      exact (hv.bind fun w => ih.bind fun rest => moves_ok ((Key.text m.name, w) :: rest)) path way

theorem moves_struct {s : Struct} {v : Value} {checks : Checks} {ty : TypeRef}
    (h : ∀ key v check, Entries.get? key checks = some (v, check) → ∀ ty, Moves (check ty)) :
    Moves (struct types s v checks ty) := by
  show Moves fun path => struct types s v checks ty path
  simp only [struct]
  refine Moves.ite (moves_refuse _ v ty) ?_
  refine (moves_presentMembers h (types.members s)).bind fun _ => Moves.ite (moves_ok _) ?_
  cases unknownKey? (types.members s) (Entries.keys checks) with
  | none => exact moves_ok _
  | some key => exact moves_unknown key.toText

theorem moves_flat (v : Value) (ty : TypeRef) : Moves (flat types v ty) := by
  intro path way
  cases ty with
  | builtin b =>
    simp only [flat]
    cases b.convert? v <;> rfl
  | array element attr =>
    simp only [flat]
    split <;> rfl
  | dict value attr key keyAttr =>
    simp only [flat]
    split <;> rfl
  | user name =>
    simp only [flat]
    split
    · split
      · split <;> rfl
      · rfl
    · split
      · exact moves_struct (by simp [Entries.get?]) path way
      · rfl
    · rfl

variable (types) in
theorem moves_leaf (v : Value) (ty : TypeRef) : Moves (leaf types v ty) :=
  moves_resolved fun inner => moves_flat v inner

theorem moves_itemsFrom {items : List Value} (h : ∀ v ∈ items, ∀ ty, Moves (value types v ty))
    (ty : TypeRef) (attr : Option Attributes) (i : Nat) :
    Moves fun path => itemsFrom types items ty attr path i := by
  induction items generalizing i with
  | nil => exact moves_ok []
  | cons v items ih =>
    obtain ⟨hv, hrest⟩ := List.forall_mem_cons.1 h
    have hitem := (moves_element (v := v) (hv ty) attr).below (toString i)
    simp only [itemsFrom]
    exact hitem.bind fun w => (ih hrest (i + 1)).bind fun rest => moves_ok (w :: rest)

theorem moves_dictEntries {entries : List (Key × Value)}
    (h : ∀ e ∈ entries, ∀ ty, Moves (value types e.2 ty)) (ty : TypeRef)
    (attr : Option Attributes) (keyType : TypeRef) (keyAttr : Option Attributes) :
    Moves (dictEntries types entries ty attr keyType keyAttr) := by
  induction entries with
  | nil => exact moves_ok []
  | cons e entries ih =>
    obtain ⟨k, v⟩ := e
    obtain ⟨hv, hrest⟩ := List.forall_mem_cons.1 h
    have hkey := moves_element (v := .ofKey k) (moves_leaf types (.ofKey k) keyType)
      keyAttr
    have hentry := (moves_element (v := v) (hv ty) attr).below k.toText
    intro path way
    simp only [dictEntries]
    exact (hkey.bind fun key => hentry.bind fun w =>
      (ih hrest).bind fun rest => moves_ok ((keyOf key, w) :: rest)) path way

/-! ## Values -/

variable (types) in
theorem moves_value (v : Value) (ty : TypeRef) : Moves (value types v ty) := by
  induction v generalizing ty with
  | scalar v hs =>
    rw [value_scalar hs]
    exact moves_leaf types v ty
  | array items ih =>
    rw [value]
    refine moves_resolved fun inner => ?_
    cases inner with
    | array element attr => exact (moves_itemsFrom ih element attr 0).map Value.array
    | _ => exact moves_flat _ _
  | object entries ih =>
    rw [value]
    refine moves_resolved fun inner => ?_
    cases inner with
    | dict ty attr key keyAttr =>
      exact (moves_dictEntries ih ty attr _ keyAttr).map fun pairs =>
        Value.object (Entries.ofList pairs)
    | user name =>
      cases hs : struct? types (.user name) with
      | none =>
        simp only [hs]
        exact moves_flat _ _
      | some s =>
        simp only [hs]
        refine moves_struct fun key v check hg => ?_
        rw [get?_memberChecks, Option.map_eq_some_iff] at hg
        obtain ⟨_, hmem, ⟨⟩⟩ := hg
        exact ih _ (Entries.mem_of_get? hmem)
    | _ => exact moves_flat _ _

end Validate

/-! ## Texts of paths -/

namespace Path

/-- The text of a path that goes on with one more segment. -/
def joined (path : Option String) (segment : String) : String :=
  path.elim segment fun text => text ++ "." ++ segment

/-- The text of a path that goes on with further segments. -/
def extended (path : Option String) (way : Path) : Option String :=
  way.foldl (fun path segment => some (joined path segment)) path

theorem text?_append_singleton (path : Path) (segment : String) :
    text? (path ++ [segment]) = some (joined path.text? segment) := by
  have hne : (path ++ [segment]).isEmpty = false := by simp
  rw [text?, hne]
  by_cases hp : path = []
  · subst hp
    simp [join, joined, text?]
  · have hjoin : join (path ++ [segment]) = join path ++ "." ++ segment := by
      rw [join, String.intercalate_append_of_ne_nil hp (List.cons_ne_nil segment []),
        String.intercalate_singleton, join]
    have htext : path.text? = some path.join := by simp [text?, hp]
    rw [htext, hjoin]
    rfl

theorem text?_append (path way : Path) : text? (path ++ way) = extended path.text? way := by
  induction way generalizing path with
  | nil =>
    rw [List.append_nil]
    rfl
  | cons segment way ih =>
    rw [← List.singleton_append, ← List.append_assoc, ih, text?_append_singleton]
    rfl

end Path

/-! ## Two places -/

/-- A failure about what an object has for members, not about a value. -/
def Failure.IsOfMembers : Failure → Prop
  | .missingMember _ => True
  | .unknownMember _ => True
  | _ => False

/-- A value that stands at a path comes to what it comes to on its own. -/
theorem Types.validate_eq_mapError (types : Types) (ty : TypeRef) (v : Value) (path : Path) :
    types.validate ty v path = (types.validate ty v []).mapError (Failure.under path) := by
  have h := Validate.moves_value types v ty path []
  rwa [List.append_nil] at h

/-- In any two places, the root among them, a value is read as the same or refused for the same.  A
failure that is not about members names the place where the value stands and then the same segments,
those that lead to what is wrong. -/
theorem validate_elsewhere (types : Types) (ty : TypeRef) (v : Value) (p q : Path) :
    (∃ w, types.validate ty v p = .ok w ∧ types.validate ty v q = .ok w)
      ∨ ∃ f : Failure, types.validate ty v p = .error (f.under p)
        ∧ types.validate ty v q = .error (f.under q)
        ∧ ((f.IsOfMembers ∧ (f.under p).member? = none ∧ (f.under q).member? = none)
          ∨ ∃ way, (f.under p).member? = Path.extended p.text? way
            ∧ (f.under q).member? = Path.extended q.text? way) := by
  rw [types.validate_eq_mapError ty v p, types.validate_eq_mapError ty v q]
  cases hv : types.validate ty v [] with
  | ok w => exact .inl ⟨w, rfl, rfl⟩
  | error f =>
    refine .inr ⟨f, rfl, rfl, ?_⟩
    have hlies : f.LiesIn (types.KeyedByStruct ty) v [] := Validate.failsOnly_value .refl f hv
    cases hlies with
    | @invalid way _ _ _ _ _ => exact .inr ⟨way, Path.text?_append p way, Path.text?_append q way⟩
    | missing _ _ => exact .inl ⟨trivial, rfl, rfl⟩
    | missingInKey _ _ _ => exact .inl ⟨trivial, rfl, rfl⟩
    | unknown _ => exact .inl ⟨trivial, rfl, rfl⟩

end SchemaLang
