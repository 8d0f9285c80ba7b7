import SchemaLang.Proofs.Validate.Equations

/-!
# Validation ends

`Types.validate` goes by the value alone, so it ends whatever the types are.  The plain recursion
goes by the type, which need not become smaller: the target of an alias is asked for the same value,
the items of an array may have the type of the array, and the key of a dict is asked for as a text
that was not inside the value.  `Validate.nested` is this recursion with a bound on how deep calls
are nested, and nothing comes of a call beyond the bound.

A call for something inside the value goes to a value of less height.  A call for the target of an
alias keeps the value, but comes nearer to the end of the aliases, which is there, since aliases
that go round have been sorted out before.

* `Validate.step_eq`: a call makes no calls but those of `Validate.Calls`.
* `Validate.Calls.levels_lt`: what is left of height and aliases grows less with every call.
* `validation_ends`: no more levels are needed than the height of the value, counted once for each
  name of the model.
-/

namespace SchemaLang

/-! ## Height -/

mutual

/-- How deep arrays and objects are nested in a value. -/
def Value.height : Value → Nat
  | .array items => heightOfItems items + 1
  | .object entries => heightOfEntries entries + 1
  | _ => 0

def Value.heightOfItems : List Value → Nat
  | [] => 0
  | v :: items => max v.height (heightOfItems items)

def Value.heightOfEntries : List (Key × Value) → Nat
  | [] => 0
  | (_, v) :: entries => max v.height (heightOfEntries entries)

end

namespace Value

theorem height_le_of_mem {items : List Value} {v : Value} (h : v ∈ items) :
    v.height ≤ heightOfItems items := by
  induction items with
  | nil => simp at h
  | cons w items ih =>
    rw [heightOfItems]
    rcases List.mem_cons.1 h with rfl | h
    · exact Nat.le_max_left _ _
    · exact (ih h).trans (Nat.le_max_right _ _)

theorem height_le_of_mem_entries {entries : List (Key × Value)} {e : Key × Value}
    (h : e ∈ entries) : e.2.height ≤ heightOfEntries entries := by
  induction entries with
  | nil => simp at h
  | cons e' entries ih =>
    rw [heightOfEntries]
    rcases List.mem_cons.1 h with rfl | h
    · exact Nat.le_max_left _ _
    · exact (ih h).trans (Nat.le_max_right _ _)

theorem height_lt_array {items : List Value} {v : Value} (h : v ∈ items) :
    v.height < (array items).height := by
  rw [height]
  exact Nat.lt_succ_of_le (height_le_of_mem h)

theorem height_lt_object {entries : List (Key × Value)} {e : Key × Value} (h : e ∈ entries) :
    e.2.height < (object entries).height := by
  rw [height]
  exact Nat.lt_succ_of_le (height_le_of_mem_entries h)

theorem height_ofKey (k : Key) : (ofKey k).height = 0 := by
  cases k <;> simp [ofKey, height]

end Value

namespace Validate

/-! ## Nested calls -/

/-- What comes of calls that are nested only so deep: nothing at all where they go deeper. -/
abbrev Attempt (α : Type) := ExceptT Failure Option α

def Attempt.ended {α : Type} (x : Except Failure α) : Attempt α := some x

/-- Validates a value against a type. -/
abbrev Call := TypeRef → Value → Path → Attempt Value

namespace Call

variable (call : Call)

def element (ty : TypeRef) (attr : Option Attributes) (v : Value) (path : Path) :
    Attempt Value := do
  let w ← if v.isNull || (allowsNull attr && v.isNullText) then pure .null else call ty v path
  .ended (checkAttributes ty attr w path)
  pure w

def target (types : Types) (name : String) (t : Typedef) (v : Value) (path : Path) :
    Attempt Value :=
  if types.isCircular t.type then .ended (refuse .circularAlias v (.user name) path)
  else do
    let w ←
      if allowsNull t.attr && (v.isNull || v.isNullText) then pure .null else call t.type v path
    .ended (checkAttributes (.user name) t.attr w path)
    pure w

def items (ty : TypeRef) (attr : Option Attributes) (path : Path) :
    Nat → List Value → Attempt (List Value)
  | _, [] => pure []
  | i, v :: vs => do
    let w ← element call ty attr v (path ++ [toString i])
    let rest ← items ty attr path (i + 1) vs
    pure (w :: rest)

def entries (ty : TypeRef) (attr : Option Attributes) (keyType : TypeRef)
    (keyAttr : Option Attributes) (path : Path) :
    List (Key × Value) → Attempt (List (Key × Value))
  | [] => pure []
  | (k, v) :: es => do
    let key ← element call keyType keyAttr (.ofKey k) path
    let w ← element call ty attr v (path ++ [k.toText])
    let rest ← entries ty attr keyType keyAttr path es
    pure ((keyOf key, w) :: rest)

def members (s : Struct) (path : Path) (given : List (Key × Value)) :
    List Member → Attempt (List (Key × Value))
  | [] => pure []
  | m :: ms =>
    match Entries.get? (.text m.name) given with
    | none =>
      if !m.optional && !s.union then .ended (.error (.missingMember (path ++ [m.name])))
      else members s path given ms
    | some v => do
      let w ← element call m.type m.attr v (path ++ [m.name])
      let rest ← members s path given ms
      pure ((.text m.name, w) :: rest)

def struct (types : Types) (s : Struct) (v : Value) (given : List (Key × Value)) (ty : TypeRef)
    (path : Path) : Attempt Value :=
  if s.union && given.length != 1 then .ended (mismatch v ty path)
  else do
    let out := Entries.ofList (← members call s path given (types.members s))
    if out.length = given.length then pure (.object out)
    else
      match unknownKey? (types.members s) (Entries.keys given) with
      | none => pure (.object out)
      | some key => .ended (.error (.unknownMember (path ++ [key.toText])))

end Call

/-- One call, by the form of the type. -/
def step (types : Types) (call : Call) : Call := fun ty v path =>
  match ty with
  | .builtin _ => .ended (flat types v ty path)
  | .array element attr =>
    match v.items? with
    | some items => do
      let ws ← call.items element attr path 0 items
      pure (.array ws)
    | none => .ended (mismatch v ty path)
  | .dict value attr key keyAttr =>
    match v.entries? with
    | some entries => do
      let pairs ← call.entries value attr (key.getD (.builtin .string)) keyAttr path entries
      pure (.object (Entries.ofList pairs))
    | none => .ended (mismatch v ty path)
  | .user name =>
    match types.get? name with
    | some (.typedef t) => call.target types name t v path
    | some (.enum _) => .ended (flat types v ty path)
    | some (.struct s) =>
      match v.entries? with
      | some entries => call.struct types s v entries ty path
      | none => .ended (mismatch v ty path)
    | _ => .ended (refuse .undefinedType v ty path)

/-- Calls within calls, at most so many. -/
def nested (types : Types) : Nat → Call
  | 0 => fun _ _ _ => none
  | n + 1 => step types (nested types n)

/-- The calls that a call makes. -/
inductive Calls (types : Types) : TypeRef × Value → TypeRef × Value → Prop
  | target {name : String} {t : Typedef} {v : Value} (hd : types.get? name = some (.typedef t))
      (hc : types.isCircular t.type = false) : Calls types (.user name, v) (t.type, v)
  | item {element : TypeRef} {attr : Option Attributes} {items : List Value} {v : Value}
      (hv : v ∈ items) : Calls types (.array element attr, .array items) (element, v)
  | key {value : TypeRef} {attr keyAttr : Option Attributes} {key : Option TypeRef}
      {entries : List (Key × Value)} {e : Key × Value} (he : e ∈ entries) :
      Calls types (.dict value attr key keyAttr, .object entries)
        (key.getD (.builtin .string), .ofKey e.1)
  | value {value : TypeRef} {attr keyAttr : Option Attributes} {key : Option TypeRef}
      {entries : List (Key × Value)} {e : Key × Value} (he : e ∈ entries) :
      Calls types (.dict value attr key keyAttr, .object entries) (value, e.2)
  | member {name : String} {s : Struct} {entries : List (Key × Value)} {m : Member} {v : Value}
      (hd : types.get? name = some (.struct s)) (hm : m ∈ types.members s)
      (hv : Entries.get? (.text m.name) entries = some v) :
      Calls types (.user name, .object entries) (m.type, v)

/-! ## One call -/

variable {types : Types} {α β : Type}

theorem ended_bind (x : Except Failure α) (f : α → Except Failure β) :
    (Attempt.ended x >>= fun a => Attempt.ended (f a)) = Attempt.ended (x >>= f) := by
  cases x <;> rfl

theorem pure_eq_ended (a : α) : (pure a : Attempt α) = .ended (.ok a) := rfl

/-- A call that has been answered as `Types.validate` would. -/
def Answers (types : Types) (call : Call) (ty : TypeRef) (v : Value) : Prop :=
  ∀ path, call ty v path = .ended (value types v ty path)

namespace Call

variable {call : Call}

theorem site_eq {r : Attempt Value} {x : Except Failure Value} (hr : r = .ended x)
    (isNull : Bool) (ty : TypeRef) (attr : Option Attributes) (path : Path) :
    (do
      let w ← if isNull then pure .null else r
      .ended (checkAttributes ty attr w path)
      pure w : Attempt Value)
    = .ended (do
      let w ← if isNull then .ok .null else x
      checkAttributes ty attr w path
      pure w) := by
  subst hr
  cases isNull <;> simp only [pure_eq_ended, ended_bind, if_true, Bool.false_eq_true, if_false] <;>
    rfl

theorem element_eq {ty : TypeRef} {v : Value} (h : Answers types call ty v)
    (attr : Option Attributes) (path : Path) :
    call.element ty attr v path = .ended (Validate.element v (value types v) ty attr path) :=
  site_eq (h path) _ ty attr path

theorem target_eq {name : String} {t : Typedef} {v : Value}
    (hd : types.get? name = some (.typedef t))
    (h : types.isCircular t.type = false → Answers types call t.type v) (path : Path) :
    call.target types name t v path = .ended (value types v (.user name) path) := by
  rw [value_typedef hd, target]
  cases hc : types.isCircular t.type with
  | true => rfl
  | false => exact site_eq (h hc path) _ (.user name) t.attr path

theorem items_eq {items : List Value} {ty : TypeRef} (h : ∀ v ∈ items, Answers types call ty v)
    (attr : Option Attributes) (path : Path) (i : Nat) :
    call.items ty attr path i items = .ended (itemsFrom types items ty attr path i) := by
  induction items generalizing i with
  | nil => rfl
  | cons v items ih =>
    obtain ⟨hv, hr⟩ := List.forall_mem_cons.1 h
    simp only [Call.items, itemsFrom, element_eq hv, ih hr, pure_eq_ended, ended_bind]
    rfl

theorem entries_eq {entries : List (Key × Value)} {ty keyType : TypeRef}
    (hk : ∀ e ∈ entries, Answers types call keyType (.ofKey e.1))
    (hv : ∀ e ∈ entries, Answers types call ty e.2) (attr keyAttr : Option Attributes)
    (path : Path) :
    call.entries ty attr keyType keyAttr path entries
      = .ended (dictEntries types entries ty attr keyType keyAttr path) := by
  induction entries with
  | nil => rfl
  | cons e entries ih =>
    obtain ⟨hke, hkr⟩ := List.forall_mem_cons.1 hk
    obtain ⟨hve, hvr⟩ := List.forall_mem_cons.1 hv
    simp only [Call.entries, dictEntries, element_eq hke, element_eq hve, ih hkr hvr,
      value_scalar (Value.isContainer_ofKey e.1), pure_eq_ended, ended_bind]
    rfl

theorem members_eq {s : Struct} {entries : List (Key × Value)} {members : List Member}
    (h : ∀ m ∈ members, ∀ v, Entries.get? (.text m.name) entries = some v →
      Answers types call m.type v) (path : Path) :
    call.members s path entries members
      = .ended (presentMembers s path (memberChecks types entries) members) := by
  induction members with
  | nil => rfl
  | cons m members ih =>
    obtain ⟨hm, hr⟩ := List.forall_mem_cons.1 h
    rw [Call.members, presentMembers, get?_memberChecks]
    cases hg : Entries.get? (.text m.name) entries with
    | none =>
      simp only [Option.map_none, ih hr]
      split <;> rfl
    | some v =>
      simp only [Option.map_some, element_eq (hm v hg), ih hr, pure_eq_ended, ended_bind]
      rfl

theorem struct_eq {s : Struct} {entries : List (Key × Value)}
    (h : ∀ m ∈ types.members s, ∀ v, Entries.get? (.text m.name) entries = some v →
      Answers types call m.type v) (v : Value) (ty : TypeRef) (path : Path) :
    call.struct types s v entries ty path
      = .ended (Validate.struct types s v (memberChecks types entries) ty path) := by
  have hl : (memberChecks types entries).length = entries.length := by
    rw [memberChecks_eq_map, List.length_map]
  rw [Call.struct, Validate.struct, hl, keys_memberChecks, members_eq h]
  split
  · rfl
  · rw [← ended_bind]
    refine bind_congr fun pairs => ?_
    dsimp only
    split
    · rfl
    · cases unknownKey? (types.members s) (Entries.keys entries) <;> rfl

end Call

/-- A call makes no other calls than those of `Calls`. -/
theorem step_eq {call : Call} {ty : TypeRef} {v : Value}
    (h : ∀ ty' v', Calls types (ty, v) (ty', v') → Answers types call ty' v') :
    Answers types (step types call) ty v := by
  intro path
  cases ty with
  | builtin b => rw [step, value_builtin]
  | array element attr =>
    rw [step, value_array]
    cases hv : v.items? with
    | none => rfl
    | some items =>
      have hi : ∀ w ∈ items, Answers types call element w := by
        rcases Value.eq_of_items? hv with rfl | ⟨-, rfl⟩
        · exact fun w hw => h _ _ (.item hw)
        · simp
      simp only [Call.items_eq hi]
      cases itemsFrom types items element attr path 0 <;> rfl
  | dict ty attr key keyAttr =>
    rw [step, value_dict]
    cases hv : v.entries? with
    | none => rfl
    | some entries =>
      have he : (∀ e ∈ entries, Answers types call (key.getD (.builtin .string)) (.ofKey e.1))
          ∧ ∀ e ∈ entries, Answers types call ty e.2 := by
        rcases Value.eq_of_entries? hv with rfl | ⟨-, rfl⟩
        · exact ⟨fun e he => h _ _ (.key he), fun e he => h _ _ (.value he)⟩
        · simp
      simp only [Call.entries_eq he.1 he.2]
      cases dictEntries types entries ty attr (key.getD (.builtin .string)) keyAttr path <;> rfl
  | user name =>
    cases hd : types.get? name with
    | none =>
      simp only [step, hd]
      rw [value_undefined (.inl hd)]
    | some d =>
      cases d with
      | typedef t =>
        simp only [step, hd]
        exact Call.target_eq hd (fun hc => h _ _ (.target hd hc)) path
      | enum e =>
        simp only [step, hd]
        rw [value_enum hd]
      | action a =>
        simp only [step, hd]
        rw [value_undefined (.inr ⟨a, hd⟩)]
      | struct s =>
        simp only [step, hd]
        rw [value_struct hd]
        cases hv : v.entries? with
        | none => rfl
        | some entries =>
          refine Call.struct_eq ?_ v _ path
          intro m hm w hw
          rcases Value.eq_of_entries? hv with rfl | ⟨-, rfl⟩
          · exact h _ _ (.member hd hm hw)
          · simp [Entries.get?] at hw

/-! ## What is left of height and aliases -/

/-- The aliases from a type on. -/
def aliasesLeft (types : Types) (ty : TypeRef) : Nat :=
  if types.isCircular ty then 0 else (types.resolve ty).1.length

theorem aliasesLeft_of_leads {ty target : TypeRef} {aliases : List (String × Typedef)}
    (h : types.Leads ty aliases target) : aliasesLeft types ty = aliases.length := by
  obtain ⟨hc, hr⟩ := Types.leads_iff.1 h
  rw [aliasesLeft, hc, hr]
  rfl

/-- No alias is met twice. -/
theorem aliasesLeft_le (ty : TypeRef) : aliasesLeft types ty ≤ types.names.length := by
  cases hc : types.isCircular ty with
  | true => simp [aliasesLeft, hc]
  | false =>
    have hl : types.Leads ty (types.resolve ty).1 (types.resolve ty).2 :=
      Types.leads_iff.2 ⟨hc, rfl⟩
    rw [aliasesLeft_of_leads hl, ← List.length_map (f := Prod.fst)]
    exact (hl.nodup.subperm hl.names).length_le

/-- A call goes to a value of less height, or keeps the value and takes the first of the aliases
from its type, which end. -/
theorem Calls.lower_or_nearer {ty ty' : TypeRef} {v v' : Value}
    (h : Calls types (ty, v) (ty', v')) :
    v'.height < v.height ∨ (v' = v ∧ ∃ entered aliases target,
      types.Leads ty (entered :: aliases) target ∧ types.Leads ty' aliases target) := by
  cases h with
  | target hd hc =>
    have hl := Types.leads_iff.2 ⟨hc, rfl⟩
    exact .inr ⟨rfl, _, _, _, .step hd hl, hl⟩
  | item hv => exact .inl (Value.height_lt_array hv)
  | key he =>
    rw [Value.height_ofKey]
    exact .inl ((Nat.zero_le _).trans_lt (Value.height_lt_object he))
  | value he => exact .inl (Value.height_lt_object he)
  | member _ _ hv => exact .inl (Value.height_lt_object (Entries.mem_of_get? hv))

/-- The levels that calls go down from a type and a value. -/
def levels (types : Types) (ty : TypeRef) (v : Value) : Nat :=
  v.height * (types.names.length + 1) + aliasesLeft types ty

theorem Calls.levels_lt {ty ty' : TypeRef} {v v' : Value} (h : Calls types (ty, v) (ty', v')) :
    levels types ty' v' < levels types ty v := by
  rcases h.lower_or_nearer with hv | ⟨rfl, entered, aliases, target, hl, hl'⟩
  · have ha := @aliasesLeft_le types ty'
    have hm : (v'.height + 1) * (types.names.length + 1)
        ≤ v.height * (types.names.length + 1) := Nat.mul_le_mul_right _ hv
    rw [Nat.succ_mul] at hm
    rw [levels, levels]
    omega
  · rw [levels, levels, aliasesLeft_of_leads hl, aliasesLeft_of_leads hl', List.length_cons]
    exact Nat.lt_succ_self _

theorem levels_lt (types : Types) (ty : TypeRef) (v : Value) :
    levels types ty v < (v.height + 1) * (types.names.length + 1) := by
  have ha := @aliasesLeft_le types ty
  rw [levels, Nat.succ_mul]
  omega

theorem answers_nested {n : Nat} {ty : TypeRef} {v : Value} (h : levels types ty v < n) :
    Answers types (nested types n) ty v := by
  induction n generalizing ty v with
  | zero => omega
  | succ n ih =>
    refine step_eq fun ty' v' hc => ih ?_
    have := hc.levels_lt
    omega

end Validate

/-- Every call that validation makes goes to a value of less height, or follows aliases that end by
one step.  With as many levels as the height of the value, counted once for each name of the model
and once more, calls come to what `Types.validate` says. -/
theorem validation_ends (types : Types) (ty : TypeRef) (v : Value) :
    (∀ ty' v', Validate.Calls types (ty, v) (ty', v') →
        v'.height < v.height ∨ (v' = v ∧ ∃ entered aliases target,
          types.Leads ty (entered :: aliases) target ∧ types.Leads ty' aliases target))
      ∧ (∀ call, (∀ ty' v', Validate.Calls types (ty, v) (ty', v') →
          Validate.Answers types call ty' v') →
        Validate.Answers types (Validate.step types call) ty v)
      ∧ ∀ n, (v.height + 1) * (types.names.length + 1) ≤ n → ∀ path,
        Validate.nested types n ty v path = .ended (types.validate ty v path) := by
  refine ⟨fun ty' v' h => h.lower_or_nearer, fun call h => Validate.step_eq h, ?_⟩
  intro n hn path
  exact Validate.answers_nested ((Validate.levels_lt types ty v).trans_le hn) path

end SchemaLang
