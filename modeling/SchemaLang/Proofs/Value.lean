import SchemaLang.Value.Json

/-!
# Containers

Arrays and objects are the containers among the values; what is inside them is itself a value, and
`Value.induct` is the induction that goes into it.  A validator reads the empty text as a container
without anything in it, and `items?` and `entries?` say so.

`Throughout P` is a property of a value and of everything inside it.
-/

namespace SchemaLang.Value

def isContainer : Value → Bool
  | .array _ => true
  | .object _ => true
  | _ => false

/-- The items of a value that is read as an array. -/
def items? : Value → Option (List Value)
  | .array items => some items
  | .string s => if s = "" then some [] else none
  | _ => none

/-- The entries of a value that is read as an object. -/
def entries? : Value → Option (List (Key × Value))
  | .object entries => some entries
  | .string s => if s = "" then some [] else none
  | _ => none

/-- Only arrays and the empty text are read as arrays. -/
theorem eq_of_items? {v : Value} {items : List Value} (h : v.items? = some items) :
    v = .array items ∨ (v = .string "" ∧ items = []) := by
  cases v with
  | array vs => exact .inl (congrArg _ (Option.some.inj h))
  | string s =>
    rw [items?] at h
    split at h
    · next hs => exact .inr ⟨congrArg _ hs, (Option.some.inj h).symm⟩
    · simp at h
  | _ => simp [items?] at h

theorem eq_of_entries? {v : Value} {entries : List (Key × Value)} (h : v.entries? = some entries) :
    v = .object entries ∨ (v = .string "" ∧ entries = []) := by
  cases v with
  | object es => exact .inl (congrArg _ (Option.some.inj h))
  | string s =>
    rw [entries?] at h
    split at h
    · next hs => exact .inr ⟨congrArg _ hs, (Option.some.inj h).symm⟩
    · simp at h
  | _ => simp [entries?] at h

theorem isNull_iff {v : Value} : v.isNull = true ↔ v = .null := by
  cases v <;> simp [isNull]

theorem isNullText_iff {v : Value} : v.isNullText = true ↔ v = .string "null" := by
  cases v <;> simp [isNullText]

theorem isContainer_ofKey (k : Key) : (ofKey k).isContainer = false := by
  cases k <;> rfl

/-! ## Induction into containers -/

theorem sizeOf_item_lt {items : List Value} {v : Value} (h : v ∈ items) :
    sizeOf v < sizeOf (Value.array items) := by
  have hv := List.sizeOf_lt_of_mem h
  rw [Value.array.sizeOf_spec]
  omega

theorem sizeOf_entry_lt {entries : List (Key × Value)} {e : Key × Value} (h : e ∈ entries) :
    sizeOf e.2 < sizeOf (Value.object entries) := by
  have he := List.sizeOf_lt_of_mem h
  obtain ⟨k, v⟩ := e
  rw [Prod.mk.sizeOf_spec] at he
  rw [Value.object.sizeOf_spec]
  show sizeOf v < _
  omega

@[elab_as_elim, induction_eliminator]
theorem induct {motive : Value → Prop} (scalar : ∀ v, v.isContainer = false → motive v)
    (array : ∀ items, (∀ v ∈ items, motive v) → motive (.array items))
    (object : ∀ entries, (∀ e ∈ entries, motive e.2) → motive (.object entries)) :
    ∀ v, motive v
  | .null => scalar _ rfl
  | .bool _ => scalar _ rfl
  | .int _ => scalar _ rfl
  | .float _ => scalar _ rfl
  | .string _ => scalar _ rfl
  | .date _ => scalar _ rfl
  | .moment _ => scalar _ rfl
  | .uuid _ => scalar _ rfl
  | .array items => array items fun v _ => induct scalar array object v
  | .object entries => object entries fun e _ => induct scalar array object e.2
termination_by v => sizeOf v
decreasing_by
  · exact sizeOf_item_lt ‹v ∈ items›
  · exact sizeOf_entry_lt ‹e ∈ entries›

/-! ## Properties of everything in a value -/

inductive Throughout (P : Value → Prop) : Value → Prop
  | scalar {v : Value} (hs : v.isContainer = false) (hp : P v) : Throughout P v
  | array {items : List Value} (hp : P (.array items)) (h : ∀ v ∈ items, Throughout P v) :
      Throughout P (.array items)
  | object {entries : List (Key × Value)} (hp : P (.object entries))
      (h : ∀ e ∈ entries, Throughout P e.2) : Throughout P (.object entries)

namespace Throughout

variable {P Q : Value → Prop}

theorem self {v : Value} (h : v.Throughout P) : P v := by
  cases h with
  | scalar _ hp => exact hp
  | array hp _ => exact hp
  | object hp _ => exact hp

theorem item {items : List Value} (h : (Value.array items).Throughout P) :
    ∀ v ∈ items, v.Throughout P := by
  cases h with
  | scalar hs _ => simp [isContainer] at hs
  | array _ h => exact h

theorem entry {entries : List (Key × Value)} (h : (Value.object entries).Throughout P) :
    ∀ e ∈ entries, e.2.Throughout P := by
  cases h with
  | scalar hs _ => simp [isContainer] at hs
  | object _ h => exact h

theorem imp (hPQ : ∀ v, P v → Q v) {v : Value} (h : v.Throughout P) : v.Throughout Q := by
  induction h with
  | scalar hs hp => exact .scalar hs (hPQ _ hp)
  | array hp _ ih => exact .array (hPQ _ hp) ih
  | object hp _ ih => exact .object (hPQ _ hp) ih

/-- The empty text is read as a container with nothing inside. -/
theorem items? {v : Value} {items : List Value} (h : v.Throughout P)
    (hi : v.items? = some items) : ∀ a ∈ items, a.Throughout P := by
  rcases eq_of_items? hi with rfl | ⟨rfl, rfl⟩
  · exact h.item
  · simp

theorem entries? {v : Value} {entries : List (Key × Value)} (h : v.Throughout P)
    (he : v.entries? = some entries) : ∀ e ∈ entries, e.2.Throughout P := by
  rcases eq_of_entries? he with rfl | ⟨rfl, rfl⟩
  · exact h.entry
  · simp

end Throughout

end SchemaLang.Value
