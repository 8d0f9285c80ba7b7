import SchemaLang.Proofs.Validate.Equivalence

/-!
# Validation by the form of the type

`Validate.value` goes by the form of the value and follows all aliases of a type at once.  Here it
is told by the form of the type instead, one alias at a time, as the equations of a recursion over
types and values.

* `Validate.value_typedef`: an alias stands for its target, unless aliases go round from there.
* `Validate.value_array`, `Validate.value_dict`, `Validate.value_struct`: what is read as a
  container is looked into.
-/

namespace SchemaLang

theorem Types.isCircular_typedef {types : Types} {name : String} {t : Typedef}
    (hd : types.get? name = some (.typedef t)) :
    types.isCircular (.user name) = types.isCircular t.type := by
  have h : types.isCircular (.user name) = false ↔ types.isCircular t.type = false := by
    constructor
    · intro hc
      have hl : types.Leads (.user name) (types.resolve (.user name)).1
          (types.resolve (.user name)).2 := leads_iff.2 ⟨hc, rfl⟩
      cases hr : types.resolve (.user name) with
      | mk aliases target =>
        rw [hr] at hl
        cases hl with
        | here h => simp [isTypedef_user hd] at h
        | step hd' h =>
          rw [hd] at hd'
          cases hd'
          exact (leads_iff.1 h).1
    · intro hc
      have hl : types.Leads t.type (types.resolve t.type).1 (types.resolve t.type).2 :=
        leads_iff.2 ⟨hc, rfl⟩
      exact (leads_iff.1 (.step hd hl)).1
  cases hu : types.isCircular (.user name) <;> cases ht : types.isCircular t.type <;>
    simp_all

namespace Validate

variable {types : Types}

/-- Aliases are followed first; what comes after them depends on the value. -/
theorem exists_target (types : Types) (v : Value) (path : Path) :
    ∃ target, ∀ ty, value types v ty path = resolved types v ty path target := by
  cases v with
  | array items => exact ⟨_, fun ty => by rw [value]⟩
  | object entries => exact ⟨_, fun ty => by rw [value]⟩
  | _ => exact ⟨fun ty => flat types _ ty path, fun ty => by rw [value_scalar rfl, leaf]⟩

theorem resolved_of_not_isTypedef {v : Value} {ty : TypeRef} {path : Path}
    (h : types.isTypedef ty = false) (target : TypeRef → Except Failure Value) :
    resolved types v ty path target = target ty := by
  rw [resolved, Types.isCircular_of_not_isTypedef h, Types.resolve_of_not_isTypedef h]
  rfl

theorem resolved_typedef {name : String} {t : Typedef} {v : Value} {path : Path}
    (hd : types.get? name = some (.typedef t)) (hc : types.isCircular t.type = false)
    (target : TypeRef → Except Failure Value) :
    resolved types v (.user name) path target = (do
      let w ←
        if allowsNull t.attr && (v.isNull || v.isNullText) then .ok .null
        else resolved types v t.type path target
      checkAttributes (.user name) t.attr w path
      pure w) := by
  have hl : types.Leads t.type (types.resolve t.type).1 (types.resolve t.type).2 :=
    Types.leads_iff.2 ⟨hc, rfl⟩
  obtain ⟨hc', hr⟩ := Types.leads_iff.1 (Types.Leads.step hd hl)
  rw [resolved, resolved, hc, hc', hr]
  rfl

theorem value_typedef {name : String} {t : Typedef} {v : Value} {path : Path}
    (hd : types.get? name = some (.typedef t)) :
    value types v (.user name) path
      = if types.isCircular t.type then refuse .circularAlias v (.user name) path
        else (do
          let w ←
            if allowsNull t.attr && (v.isNull || v.isNullText) then .ok .null
            else value types v t.type path
          checkAttributes (.user name) t.attr w path
          pure w) := by
  obtain ⟨target, ht⟩ := exists_target types v path
  simp only [ht]
  cases hc : types.isCircular t.type with
  | true =>
    rw [resolved, Types.isCircular_typedef hd, hc]
    rfl
  | false => exact resolved_typedef hd hc target

theorem value_of_scalar {v : Value} {ty : TypeRef} {path : Path} (hs : v.isContainer = false)
    (ht : types.isTypedef ty = false) : value types v ty path = flat types v ty path := by
  rw [value_scalar hs, leaf, resolved_of_not_isTypedef ht]

theorem value_builtin (b : Builtin) (v : Value) (path : Path) :
    value types v (.builtin b) path = flat types v (.builtin b) path := by
  have ht : types.isTypedef (.builtin b) = false := rfl
  induction v with
  | scalar v hs => exact value_of_scalar hs ht
  | array items _ => simp only [value, resolved_of_not_isTypedef ht]
  | object entries _ =>
    simp only [value, resolved_of_not_isTypedef ht]
    rfl

theorem value_array (element : TypeRef) (attr : Option Attributes) (v : Value) (path : Path) :
    value types v (.array element attr) path
      = match v.items? with
        | some items => (itemsFrom types items element attr path 0).map .array
        | none => mismatch v (.array element attr) path := by
  have ht : types.isTypedef (.array element attr) = false := rfl
  induction v with
  | scalar v hs =>
    rw [value_of_scalar hs ht]
    cases v with
    | string s => by_cases h : s = "" <;> simp [flat, Value.items?, h, itemsFrom, Except.map]
    | array items => simp [Value.isContainer] at hs
    | _ => rfl
  | array items _ => simp only [value, resolved_of_not_isTypedef ht, Value.items?]
  | object entries _ =>
    simp only [value, resolved_of_not_isTypedef ht]
    rfl

theorem value_dict (ty : TypeRef) (attr : Option Attributes) (key : Option TypeRef)
    (keyAttr : Option Attributes) (v : Value) (path : Path) :
    value types v (.dict ty attr key keyAttr) path
      = match v.entries? with
        | some entries =>
          (dictEntries types entries ty attr (key.getD (.builtin .string)) keyAttr path).map
            fun pairs => .object (Entries.ofList pairs)
        | none => mismatch v (.dict ty attr key keyAttr) path := by
  have ht : types.isTypedef (.dict ty attr key keyAttr) = false := rfl
  induction v with
  | scalar v hs =>
    rw [value_of_scalar hs ht]
    cases v with
    | string s =>
      by_cases h : s = "" <;>
        simp [flat, Value.entries?, h, dictEntries, Except.map, Entries.ofList]
    | object entries => simp [Value.isContainer] at hs
    | _ => rfl
  | array items _ =>
    simp only [value, resolved_of_not_isTypedef ht]
    rfl
  | object entries _ => simp only [value, resolved_of_not_isTypedef ht, Value.entries?]

theorem value_enum {name : String} {e : Enum} (hd : types.get? name = some (.enum e)) (v : Value)
    (path : Path) : value types v (.user name) path = flat types v (.user name) path := by
  have ht : types.isTypedef (.user name) = false := isTypedef_of_enum hd
  have hs : struct? types (.user name) = none := by simp [struct?, hd, Definition.struct?]
  induction v with
  | scalar v hs => exact value_of_scalar hs ht
  | array items _ => simp only [value, resolved_of_not_isTypedef ht]
  | object entries _ => simp only [value, resolved_of_not_isTypedef ht, hs]

theorem value_struct {name : String} {s : Struct} (hd : types.get? name = some (.struct s))
    (v : Value) (path : Path) :
    value types v (.user name) path
      = match v.entries? with
        | some entries => struct types s v (memberChecks types entries) (.user name) path
        | none => mismatch v (.user name) path := by
  have ht : types.isTypedef (.user name) = false := isTypedef_of_struct hd
  induction v with
  | scalar v hs =>
    rw [value_of_scalar hs ht]
    cases v with
    | string text =>
      by_cases h : text = "" <;> simp [flat, hd, Value.entries?, h, memberChecks]
    | object entries => simp [Value.isContainer] at hs
    | _ => simp only [flat, hd, Value.entries?]
  | array items _ => simp only [value, resolved_of_not_isTypedef ht, flat, hd, Value.entries?]
  | object entries _ =>
    simp only [value, resolved_of_not_isTypedef ht, struct?_eq_some_iff.2 hd, Value.entries?]

theorem value_undefined {name : String}
    (hd : types.get? name = none ∨ ∃ a, types.get? name = some (.action a)) (v : Value)
    (path : Path) :
    value types v (.user name) path = refuse .undefinedType v (.user name) path := by
  have ht : types.isTypedef (.user name) = false := by
    rcases hd with hd | ⟨a, hd⟩ <;> simp [Types.isTypedef, hd]
  have hs : struct? types (.user name) = none := by
    rcases hd with hd | ⟨a, hd⟩ <;> simp [struct?, hd, Definition.struct?]
  have hf : flat types v (.user name) path = refuse .undefinedType v (.user name) path := by
    rcases hd with hd | ⟨a, hd⟩ <;> simp only [flat, hd]
  rw [← hf]
  induction v with
  | scalar v hs => exact value_of_scalar hs ht
  | array items _ => simp only [value, resolved_of_not_isTypedef ht]
  | object entries _ => simp only [value, resolved_of_not_isTypedef ht, hs]

end Validate

end SchemaLang
