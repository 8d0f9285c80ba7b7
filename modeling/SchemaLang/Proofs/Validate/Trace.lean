import SchemaLang.Proofs.Validate.Equivalence

/-!
# Runs of the validator

A run of the validator is the validator with a record of what it comes by: the names and aliases
that it cannot read anything as, its walks through inherited items, its checks of attributes and the
keys that it writes.  A run ends with its first failure, so the record says what has been done and
not what could be done.

* `Types.traces_validateAs`: a run comes to what the validator answers, and the record tells of the
  events behind a failure.
-/

namespace SchemaLang

namespace Validate

inductive Event
  /-- A name that is no type to read a value as. -/
  | undefined (name : String)
  /-- An alias that only leads back to itself. -/
  | circular (ty : TypeRef)
  /-- The items of a struct or an enum are listed; the walk may end at a base met again. -/
  | walk (repeats : Bool)
  /-- Attributes are checked on a value. -/
  | check (attr : Option Attributes) (w : Value)
  /-- An entry of a dict is written under a key, in the place of the key given. -/
  | write (given written : Key)

/-- What has been done, in order, and what came of it. -/
structure Run (α : Type) where
  events : List Event
  result : Except Failure α

namespace Run

def quiet {α : Type} (result : Except Failure α) : Run α := ⟨[], result⟩

def after {α : Type} (e : Event) (result : Except Failure α) : Run α := ⟨[e], result⟩

instance : Monad Run where
  pure a := quiet (.ok a)
  bind r f :=
    match r.result with
    | .ok a => ⟨r.events ++ (f a).events, (f a).result⟩
    | .error e => ⟨r.events, .error e⟩

/-- The run of a `Check`. -/
abbrev Course := TypeRef → Path → Run Value

def check (ty : TypeRef) (attr : Option Attributes) (w : Value) (path : Path) : Run Unit :=
  after (.check attr w) (checkAttributes ty attr w path)

def element (v : Value) (course : Course) (ty : TypeRef) (attr : Option Attributes) (path : Path) :
    Run Value := do
  let w ← if v.isNull || (allowsNull attr && v.isNullText) then pure .null else course ty path
  check ty attr w path
  pure w

def alongAliases (v : Value) (path : Path) (target : Unit → Run Value) :
    List (String × Typedef) → Run Value
  | [] => target ()
  | (name, t) :: aliases => do
    let w ←
      if allowsNull t.attr && (v.isNull || v.isNullText) then pure .null
      else alongAliases v path target aliases
    check (.user name) t.attr w path
    pure w

def resolved (types : Types) (v : Value) (ty : TypeRef) (path : Path)
    (target : TypeRef → Run Value) : Run Value :=
  if types.isCircular ty then after (.circular ty) (refuse .circularAlias v ty path)
  else
    let (aliases, inner) := types.resolve ty
    alongAliases v path (fun _ => target inner) aliases

abbrev Courses := List (Key × Value × Course)

def presentMembers (s : Struct) (path : Path) (courses : Courses) :
    List Member → Run (List (Key × Value))
  | [] => pure []
  | m :: members =>
    let path' := path ++ [m.name]
    match Entries.get? (.text m.name) courses with
    | none =>
      if !m.optional && !s.union then quiet (.error (.missingMember path'))
      else presentMembers s path courses members
    | some (v, course) => do
      let w ← element v course m.type m.attr path'
      let rest ← presentMembers s path courses members
      pure ((.text m.name, w) :: rest)

def struct (types : Types) (s : Struct) (v : Value) (courses : Courses) (ty : TypeRef)
    (path : Path) : Run Value :=
  if s.union && courses.length != 1 then quiet (mismatch v ty path)
  else do
    after (.walk (types.walk Struct.heritage s).repeats) (.ok ())
    let members := types.members s
    let entries := Entries.ofList (← presentMembers s path courses members)
    if entries.length = courses.length then pure (.object entries)
    else
      match unknownKey? members (Entries.keys courses) with
      | none => pure (.object entries)
      | some key => quiet (.error (.unknownMember (path ++ [key.toText])))

def flat (types : Types) (v : Value) (ty : TypeRef) (path : Path) : Run Value :=
  match ty with
  | .user name =>
    match types.get? name with
    | some (.enum e) =>
      match v with
      | .string _ =>
        after (.walk (types.walk Enum.heritage e).repeats) (Validate.flat types v ty path)
      | _ => quiet (Validate.flat types v ty path)
    | some (.struct s) =>
      match v with
      | .string "" => struct types s v [] ty path
      | _ => quiet (mismatch v ty path)
    | _ => after (.undefined name) (refuse .undefinedType v ty path)
  | ty => quiet (Validate.flat types v ty path)

def leaf (types : Types) (v : Value) : Course := fun ty path =>
  resolved types v ty path fun ty => flat types v ty path

mutual

def value (types : Types) : Value → Course
  | .array items => fun ty path =>
    resolved types (.array items) ty path fun ty =>
      match ty with
      | .array element attr => do
        let ws ← itemsFrom types items element attr path 0
        pure (.array ws)
      | ty => flat types (.array items) ty path
  | .object entries => fun ty path =>
    resolved types (.object entries) ty path fun ty =>
      match ty with
      | .dict value attr key keyAttr => do
        let pairs ←
          dictEntries types entries value attr (key.getD (.builtin .string)) keyAttr path
        pure (.object (Entries.ofList pairs))
      | ty =>
        match struct? types ty with
        | some s => struct types s (.object entries) (memberCourses types entries) ty path
        | none => flat types (.object entries) ty path
  | v => leaf types v

def itemsFrom (types : Types) : List Value → TypeRef → Option Attributes → Path → Nat →
    Run (List Value)
  | [], _, _, _, _ => pure []
  | v :: items, ty, attr, path, i => do
    let w ← element v (value types v) ty attr (path ++ [toString i])
    let rest ← itemsFrom types items ty attr path (i + 1)
    pure (w :: rest)

def dictEntries (types : Types) : List (Key × Value) → TypeRef → Option Attributes → TypeRef →
    Option Attributes → Path → Run (List (Key × Value))
  | [], _, _, _, _, _ => pure []
  | (k, v) :: entries, ty, attr, keyType, keyAttr, path => do
    let key ← element (.ofKey k) (leaf types (.ofKey k)) keyType keyAttr path
    let w ← element v (value types v) ty attr (path ++ [k.toText])
    after (.write k (keyOf key)) (.ok ())
    let rest ← dictEntries types entries ty attr keyType keyAttr path
    pure ((keyOf key, w) :: rest)

def memberCourses (types : Types) : List (Key × Value) → Courses
  | [] => []
  | (k, v) :: entries => (k, v, value types v) :: memberCourses types entries

end

end Run

/-! ## What a run tells -/

namespace Run

variable {α β : Type}

/-- The event behind a cause is among those that were met. -/
def Tells (r : Run α) : Cause → Prop
  | .undefinedType => ∃ name, .undefined name ∈ r.events
  | .circularAlias => ∃ ty, .circular ty ∈ r.events
  | .unmeasured b => ∃ a w, .check (some a) w ∈ r.events ∧ b ∈ a.bounds ∧ w.isNull = false
      ∧ w.measured? b.measure = none
  | _ => True

/-- A run comes to a result, and tells of what is behind it. -/
structure Traces (r : Run α) (x : Except Failure α) : Prop where
  result : r.result = x
  tells : ∀ {v : Value} {path : Path} {expected : String} {cause : Cause},
    x = .error (.invalid v path expected cause) → r.Tells cause

theorem Tells.mono {r : Run α} {r' : Run β} {cause : Cause} (h : r.Tells cause)
    (hs : r.events ⊆ r'.events) : r'.Tells cause := by
  cases cause with
  | undefinedType =>
    obtain ⟨name, he⟩ := h
    exact ⟨name, hs he⟩
  | circularAlias =>
    obtain ⟨ty, he⟩ := h
    exact ⟨ty, hs he⟩
  | unmeasured b =>
    obtain ⟨a, w, he, hm⟩ := h
    exact ⟨a, w, hs he, hm⟩
  | _ => exact trivial

theorem traces_pure (a : α) : (pure a : Run α).Traces (.ok a) := ⟨rfl, fun h => by cases h⟩

theorem traces_event (e : Event) : (after e (.ok ())).Traces (.ok ()) := ⟨rfl, fun h => by cases h⟩

/-- Values of the wrong kind need no event to tell of. -/
theorem traces_plain {r : Run α} {x : Except Failure α} {v : Value} {ty : TypeRef} {path : Path}
    (hr : r.result = x) (h : (∃ a, x = .ok a) ∨ x = mismatch v ty path) : r.Traces x := by
  refine ⟨hr, fun he => ?_⟩
  rcases h with ⟨a, rfl⟩ | rfl
  · cases he
  · cases he
    exact trivial

theorem Traces.bind {r : Run α} {x : Except Failure α} {f : α → Run β}
    {g : α → Except Failure β} (hr : r.Traces x) (hf : ∀ a, (f a).Traces (g a)) :
    (r >>= f).Traces (x >>= g) := by
  obtain ⟨events, result⟩ := r
  obtain ⟨rfl, ht⟩ := hr
  cases result with
  | error failure =>
    refine ⟨rfl, fun h => ?_⟩
    obtain rfl := Except.error.inj h
    exact (ht rfl).mono (List.Subset.refl events)
  | ok a => exact ⟨(hf a).result, fun h => ((hf a).tells h).mono (List.subset_append_right _ _)⟩

theorem Traces.map {r : Run α} {x : Except Failure α} (hr : r.Traces x) (f : α → β) :
    (r >>= fun a => pure (f a)).Traces (x.map f) := by
  have hb : (x >>= fun a => (.ok (f a) : Except Failure β)) = x.map f := by cases x <;> rfl
  rw [← hb]
  exact hr.bind fun a => traces_pure (f a)

/-- An event that is told of does not change what a run comes to. -/
theorem Traces.after {r : Run α} {x : Except Failure α} (e : Event) (hr : r.Traces x) :
    (after e (.ok ()) >>= fun _ => r).Traces x := (traces_event e).bind fun _ => hr

/-! ### Sites and aliases -/

theorem traces_check (ty : TypeRef) (attr : Option Attributes) (w : Value) (path : Path) :
    (check ty attr w path).Traces (checkAttributes ty attr w path) := by
  refine ⟨rfl, fun {v p expected cause} h => ?_⟩
  rw [checkAttributes] at h
  split at h
  · split at h
    · simp at h
    · cases h
      exact trivial
  · next hn =>
    split at h
    · simp at h
    · next b hb =>
      cases h
      obtain ⟨a, rfl, hf⟩ := Option.bind_eq_some_iff.1 hb
      rw [Bound.cause]
      split
      · next hm =>
        exact ⟨a, w, List.mem_cons_self, List.mem_of_find?_eq_some hf, by simpa using hn,
          by simpa using hm⟩
      · exact trivial

theorem traces_site {r : Run Value} {x : Except Failure Value} (hr : r.Traces x) (isNull : Bool)
    (ty : TypeRef) (attr : Option Attributes) (path : Path) :
    (do
      let w ← if isNull then pure .null else r
      check ty attr w path
      pure w : Run Value).Traces
    (do
      let w ← if isNull then .ok .null else x
      checkAttributes ty attr w path
      pure w) := by
  have hc : ∀ w, (check ty attr w path >>= fun _ => pure w : Run Value).Traces
      (checkAttributes ty attr w path >>= fun _ => .ok w) :=
    fun w => (traces_check ty attr w path).bind fun _ => traces_pure w
  cases isNull with
  | true => exact (traces_pure Value.null).bind hc
  | false => exact hr.bind hc

theorem traces_element {v : Value} {course : Course} {check : Check} {ty : TypeRef}
    {path : Path} (h : (course ty path).Traces (check ty path)) (attr : Option Attributes) :
    (element v course ty attr path).Traces (Validate.element v check ty attr path) :=
  traces_site h _ ty attr path

theorem traces_alongAliases {v : Value} {path : Path} {target : Unit → Run Value}
    {target' : Unit → Except Failure Value} (h : (target ()).Traces (target' ()))
    (aliases : List (String × Typedef)) :
    (alongAliases v path target aliases).Traces (Validate.alongAliases v path target' aliases) := by
  induction aliases with
  | nil => exact h
  | cons a aliases ih => exact traces_site ih _ (.user a.1) a.2.attr path

variable {types : Types}

theorem traces_resolved {v : Value} {ty : TypeRef} {path : Path} {target : TypeRef → Run Value}
    {target' : TypeRef → Except Failure Value}
    (h : ∀ inner, (target inner).Traces (target' inner)) :
    (resolved types v ty path target).Traces (Validate.resolved types v ty path target') := by
  rw [resolved, Validate.resolved]
  split
  · refine ⟨rfl, fun he => ?_⟩
    cases he
    exact ⟨ty, List.mem_cons_self⟩
  · exact traces_alongAliases (h _) _

/-! ### Containers -/

/-- Both know the same of an entry. -/
theorem get?_memberCourses (key : Key) (entries : List (Key × Value)) :
    Entries.get? key (memberCourses types entries)
      = (Entries.get? key entries).map fun v => (v, value types v) := by
  induction entries with
  | nil => rfl
  | cons e entries ih =>
    obtain ⟨k, v⟩ := e
    rw [memberCourses, Entries.get?, Entries.get?, ih]
    split <;> rfl

theorem keys_memberCourses (entries : List (Key × Value)) :
    Entries.keys (memberCourses types entries) = Entries.keys entries := by
  induction entries with
  | nil => rfl
  | cons e entries ih => exact congrArg (e.1 :: ·) ih

theorem traces_presentMembers {s : Struct} {path : Path} {entries : List (Key × Value)}
    (h : ∀ e ∈ entries, ∀ ty path,
      (value types e.2 ty path).Traces (Validate.value types e.2 ty path)) (members : List Member) :
    (presentMembers s path (memberCourses types entries) members).Traces
      (Validate.presentMembers s path (memberChecks types entries) members) := by
  induction members with
  | nil => exact traces_pure []
  | cons m members ih =>
    rw [presentMembers, Validate.presentMembers, get?_memberCourses, get?_memberChecks]
    cases hg : Entries.get? (.text m.name) entries with
    | none =>
      simp only [Option.map_none]
      split
      · exact ⟨rfl, fun he => by cases he⟩
      · exact ih
    | some v =>
      have hv := h (.text m.name, v) (Entries.mem_of_get? hg) m.type (path ++ [m.name])
      exact (traces_element hv m.attr).bind fun w => ih.bind fun rest =>
        traces_pure ((.text m.name, w) :: rest)

theorem traces_struct (entries : List (Key × Value)) {s : Struct} {v : Value} {ty : TypeRef}
    {path : Path}
    (h : ∀ e ∈ entries, ∀ ty path,
      (value types e.2 ty path).Traces (Validate.value types e.2 ty path)) :
    (struct types s v (memberCourses types entries) ty path).Traces
      (Validate.struct types s v (memberChecks types entries) ty path) := by
  have hlen : (memberCourses types entries).length = (memberChecks types entries).length := by
    rw [← List.length_map (f := Prod.fst), ← List.length_map (f := Prod.fst)]
    exact congrArg List.length ((keys_memberCourses entries).trans (keys_memberChecks entries).symm)
  rw [struct, Validate.struct, hlen, keys_memberCourses, keys_memberChecks]
  split
  · exact traces_plain rfl (.inr rfl)
  · refine Traces.after _ ((traces_presentMembers h (types.members s)).bind fun pairs => ?_)
    dsimp only
    split
    · exact traces_pure _
    · cases unknownKey? (types.members s) (Entries.keys entries) with
      | none => exact traces_pure _
      | some key => exact ⟨rfl, fun he => by cases he⟩

/-! ### Values -/

theorem flat_eq_ok_or_mismatch {v : Value} {ty : TypeRef} {path : Path}
    (hty : ∀ name, ty = .user name → ∃ e, types.get? name = some (.enum e)) :
    (∃ w, Validate.flat types v ty path = .ok w)
      ∨ Validate.flat types v ty path = mismatch v ty path := by
  cases ty with
  | user name =>
    obtain ⟨e, hd⟩ := hty name rfl
    simp only [Validate.flat, hd]
    split
    · split
      · exact .inl ⟨_, rfl⟩
      · exact .inr rfl
    · exact .inr rfl
  | builtin b =>
    rw [Validate.flat]
    cases b.convert? v with
    | none => exact .inr rfl
    | some w => exact .inl ⟨w, rfl⟩
  | array element attr =>
    simp only [Validate.flat]
    split
    · exact .inl ⟨_, rfl⟩
    · exact .inr rfl
  | dict value attr key keyAttr =>
    simp only [Validate.flat]
    split
    · exact .inl ⟨_, rfl⟩
    · exact .inr rfl

theorem traces_undefined {v : Value} {ty : TypeRef} {path : Path} (name : String) :
    (after (.undefined name) (refuse .undefinedType v ty path : Except Failure α)).Traces
      (refuse .undefinedType v ty path) :=
  ⟨rfl, fun he => by cases he; exact ⟨name, List.mem_cons_self⟩⟩

theorem traces_flat (v : Value) (ty : TypeRef) (path : Path) :
    (flat types v ty path).Traces (Validate.flat types v ty path) := by
  cases ty with
  | user name =>
    cases hd : types.get? name with
    | none =>
      simp only [flat, Validate.flat, hd]
      exact traces_undefined name
    | some d =>
      cases d with
      | enum e =>
        refine traces_plain ?_ (flat_eq_ok_or_mismatch ?_)
        · simp only [flat, hd]
          cases v <;> rfl
        · rintro _ ⟨⟩
          exact ⟨e, hd⟩
      | struct s =>
        by_cases hv : v = .string ""
        · subst hv
          simp only [flat, Validate.flat, hd]
          exact traces_struct [] (by simp)
        · have hr : flat types v (.user name) path = quiet (mismatch v (.user name) path) := by
            simp only [flat, hd]
          have hc : Validate.flat types v (.user name) path = mismatch v (.user name) path := by
            simp only [Validate.flat, hd]
          rw [hr, hc]
          exact traces_plain rfl (.inr rfl)
      | typedef t =>
        simp only [flat, Validate.flat, hd]
        exact traces_undefined name
      | action a =>
        simp only [flat, Validate.flat, hd]
        exact traces_undefined name
  | _ => exact traces_plain rfl (flat_eq_ok_or_mismatch (by simp))

theorem traces_leaf (v : Value) (ty : TypeRef) (path : Path) :
    (leaf types v ty path).Traces (Validate.leaf types v ty path) :=
  traces_resolved fun inner => traces_flat v inner path

theorem traces_itemsFrom {items : List Value} {ty : TypeRef} {attr : Option Attributes}
    {path : Path} {i : Nat}
    (h : ∀ v ∈ items, ∀ ty path, (value types v ty path).Traces (Validate.value types v ty path)) :
    (itemsFrom types items ty attr path i).Traces
      (Validate.itemsFrom types items ty attr path i) := by
  induction items generalizing i with
  | nil => exact traces_pure []
  | cons v items ih =>
    rw [itemsFrom, Validate.itemsFrom]
    obtain ⟨hv, hr⟩ := List.forall_mem_cons.1 h
    exact (traces_element (hv _ _) attr).bind fun w => (ih hr).bind fun ws => traces_pure (w :: ws)

theorem traces_dictEntries {entries : List (Key × Value)} {ty keyType : TypeRef}
    {attr keyAttr : Option Attributes} {path : Path}
    (h : ∀ e ∈ entries, ∀ ty path,
      (value types e.2 ty path).Traces (Validate.value types e.2 ty path)) :
    (dictEntries types entries ty attr keyType keyAttr path).Traces
      (Validate.dictEntries types entries ty attr keyType keyAttr path) := by
  induction entries with
  | nil => exact traces_pure []
  | cons e entries ih =>
    obtain ⟨k, v⟩ := e
    obtain ⟨hv, hr⟩ := List.forall_mem_cons.1 h
    rw [dictEntries, Validate.dictEntries]
    exact (traces_element (traces_leaf _ _ _) keyAttr).bind fun key =>
      (traces_element (hv _ _) attr).bind fun w =>
        .after _ ((ih hr).bind fun rest => traces_pure ((keyOf key, w) :: rest))

theorem value_scalar {v : Value} (hs : v.isContainer = false) : value types v = leaf types v := by
  cases v with
  | array items => simp [Value.isContainer] at hs
  | object entries => simp [Value.isContainer] at hs
  | _ => rfl

theorem traces_value (v : Value) (ty : TypeRef) (path : Path) :
    (value types v ty path).Traces (Validate.value types v ty path) := by
  induction v generalizing ty path with
  | scalar v hs =>
    rw [value_scalar hs, Validate.value_scalar hs]
    exact traces_leaf v ty path
  | array items ih =>
    rw [value, Validate.value]
    refine traces_resolved fun inner => ?_
    cases inner with
    | array element attr =>
      exact (traces_itemsFrom ih).map Value.array
    | _ => exact traces_flat _ _ path
  | object entries ih =>
    rw [value, Validate.value]
    refine traces_resolved fun inner => ?_
    cases inner with
    | dict ty attr key keyAttr =>
      exact (traces_dictEntries ih).map fun pairs => Value.object (Entries.ofList pairs)
    | user name =>
      cases hs : struct? types (.user name) with
      | none =>
        simp only [hs]
        exact traces_flat _ _ path
      | some s =>
        simp only [hs]
        exact traces_struct _ ih
    | _ => exact traces_flat _ _ path

end Run

end Validate

namespace Types

/-- The run of `validateAs`. -/
def runAs (types : Types) (name : String) (v : Value) : Validate.Run Value :=
  if types.contains name then Validate.Run.value types v (.user name) []
  else .quiet (.error (.unknownType name))

theorem traces_validateAs (types : Types) (name : String) (v : Value) :
    (types.runAs name v).Traces (types.validateAs name v) := by
  rw [runAs, validateAs]
  split
  · exact Validate.Run.traces_value v (.user name) []
  · exact ⟨rfl, fun he => by cases he⟩

end Types

end SchemaLang
