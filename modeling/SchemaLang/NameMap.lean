/-!
# Maps from names

A finite map from names, kept as the list of its entries in rising order of the names.  The order
is part of the type, so two maps with the same look-ups are equal.

* `get?_insert`, `get?_erase`, `get?_filter`: what a name maps to after each operation.
* `insert_comm`: two names may be inserted in either order.
* `ext_get?`: a map is determined by its look-ups.
-/

namespace SchemaLang

def NameMap.Sorted {α : Type} (entries : List (String × α)) : Prop :=
  entries.Pairwise fun a b => a.1 < b.1

structure NameMap (α : Type) where
  entries : List (String × α)
  sorted : NameMap.Sorted entries
  deriving DecidableEq

namespace NameMap

variable {α : Type}

/-! ## Entries -/

def find (name : String) : List (String × α) → Option α
  | [] => none
  | (k, a) :: entries => if k = name then some a else find name entries

def insertEntry (name : String) (a : α) : List (String × α) → List (String × α)
  | [] => [(name, a)]
  | (k, b) :: entries =>
    if name < k then (name, a) :: (k, b) :: entries
    else if name = k then (name, a) :: entries
    else (k, b) :: insertEntry name a entries

theorem mem_insertEntry {name : String} {a : α} {e : String × α} {entries : List (String × α)}
    (h : e ∈ insertEntry name a entries) : e = (name, a) ∨ e ∈ entries := by
  induction entries with
  | nil => simpa [insertEntry] using h
  | cons hd tl ih =>
    rw [insertEntry] at h
    split at h
    · simpa using h
    · split at h
      · rcases List.mem_cons.1 h with h | h
        · exact .inl h
        · exact .inr (List.mem_cons_of_mem _ h)
      · rcases List.mem_cons.1 h with h | h
        · exact .inr (h ▸ List.mem_cons_self)
        · exact (ih h).imp id (List.mem_cons_of_mem _)

theorem Sorted.insertEntry {name : String} {a : α} {entries : List (String × α)}
    (h : Sorted entries) : Sorted (insertEntry name a entries) := by
  induction entries with
  | nil => simp [Sorted, NameMap.insertEntry]
  | cons hd tl ih =>
    obtain ⟨k, b⟩ := hd
    have hc := List.pairwise_cons.1 h
    rw [NameMap.insertEntry]
    split
    · next hlt =>
      refine List.pairwise_cons.2 ⟨fun e he => ?_, h⟩
      rcases List.mem_cons.1 he with rfl | he
      · exact hlt
      · exact String.lt_trans hlt (hc.1 e he)
    · next hge =>
      split
      · next heq =>
        subst heq
        exact List.pairwise_cons.2 ⟨hc.1, hc.2⟩
      · next hne =>
        refine List.pairwise_cons.2 ⟨fun e he => ?_, ih hc.2⟩
        rcases mem_insertEntry he with rfl | he
        · rcases Decidable.em (k < name) with hlt | hnlt
          · exact hlt
          · exact absurd (String.le_antisymm (String.not_lt.1 hnlt) (String.not_lt.1 hge)) hne
        · exact hc.1 e he

theorem find_insertEntry (name other : String) (a : α) (entries : List (String × α)) :
    find other (insertEntry name a entries)
      = if name = other then some a else find other entries := by
  induction entries with
  | nil => simp [find, insertEntry]
  | cons hd tl ih =>
    obtain ⟨k, b⟩ := hd
    rw [insertEntry]
    split
    · simp [find]
    · split
      · next heq =>
        subst heq
        by_cases ho : name = other <;> simp [find, ho]
      · next hne =>
        by_cases ho : k = other
        · subst ho
          simp [find, hne]
        · simp [find, ho, ih]

theorem find_filter (p : String → Bool) (name : String) (entries : List (String × α)) :
    find name (entries.filter fun e => p e.1) = if p name then find name entries else none := by
  induction entries with
  | nil => simp [find]
  | cons hd tl ih =>
    obtain ⟨k, b⟩ := hd
    by_cases hk : k = name
    · subst hk
      by_cases hp : p k <;> simp [hp, find, ih]
    · by_cases hp : p k <;> simp [hp, find, hk, ih]

theorem mem_of_find {name : String} {a : α} {entries : List (String × α)}
    (h : find name entries = some a) : (name, a) ∈ entries := by
  induction entries with
  | nil => simp [find] at h
  | cons hd tl ih =>
    obtain ⟨k, b⟩ := hd
    rw [find] at h
    split at h
    · next hk => simp [hk, (Option.some.inj h)]
    · exact List.mem_cons_of_mem _ (ih h)

theorem find_eq_none_of_lt {name : String} {entries : List (String × α)}
    (h : ∀ e ∈ entries, name < e.1) : find name entries = none := by
  induction entries with
  | nil => rfl
  | cons hd tl ih =>
    obtain ⟨k, b⟩ := hd
    have hk : k ≠ name := fun he =>
      String.lt_irrefl name (he ▸ h (k, b) List.mem_cons_self : name < name)
    rw [find, if_neg hk]
    exact ih fun e he => h e (List.mem_cons_of_mem _ he)

theorem find_of_mem {name : String} {a : α} {entries : List (String × α)} (hs : Sorted entries)
    (h : (name, a) ∈ entries) : find name entries = some a := by
  induction entries with
  | nil => simp at h
  | cons hd tl ih =>
    obtain ⟨k, b⟩ := hd
    have hc := List.pairwise_cons.1 hs
    rcases List.mem_cons.1 h with h | h
    · obtain ⟨rfl, rfl⟩ := Prod.mk.inj h
      simp [find]
    · have hk : k ≠ name := fun he =>
        String.lt_irrefl name (he ▸ hc.1 _ h : name < name)
      rw [find, if_neg hk]
      exact ih hc.2 h

/-! ## Maps -/

def empty : NameMap α := ⟨[], List.Pairwise.nil⟩

instance : EmptyCollection (NameMap α) := ⟨empty⟩

instance : Inhabited (NameMap α) := ⟨empty⟩

def get? (m : NameMap α) (name : String) : Option α := find name m.entries

def contains (m : NameMap α) (name : String) : Bool := (m.get? name).isSome

def names (m : NameMap α) : List String := m.entries.map Prod.fst

def size (m : NameMap α) : Nat := m.entries.length

def insert (m : NameMap α) (name : String) (a : α) : NameMap α :=
  ⟨insertEntry name a m.entries, m.sorted.insertEntry⟩

/-- The entries whose names pass a test. -/
def filter (p : String → Bool) (m : NameMap α) : NameMap α :=
  ⟨m.entries.filter fun e => p e.1, m.sorted.filter _⟩

def erase (m : NameMap α) (name : String) : NameMap α := m.filter (· ≠ name)

def ofList (entries : List (String × α)) : NameMap α :=
  entries.foldl (fun m e => m.insert e.1 e.2) empty

@[simp] theorem get?_empty (name : String) : (empty : NameMap α).get? name = none := rfl

theorem get?_insert (m : NameMap α) (name other : String) (a : α) :
    (m.insert name a).get? other = if name = other then some a else m.get? other :=
  find_insertEntry name other a m.entries

theorem contains_insert {m : NameMap α} {name other : String} {a : α} :
    (m.insert name a).contains other = true ↔ name = other ∨ m.contains other = true := by
  rw [contains, get?_insert, contains]
  by_cases h : name = other <;> simp [h]

theorem get?_filter (m : NameMap α) (p : String → Bool) (name : String) :
    (m.filter p).get? name = if p name then m.get? name else none :=
  find_filter p name m.entries

theorem get?_erase (m : NameMap α) (name other : String) :
    (m.erase name).get? other = if other = name then none else m.get? other := by
  rw [erase, get?_filter]
  by_cases h : other = name <;> simp [h]

theorem get?_eq_some_iff {m : NameMap α} {name : String} {a : α} :
    m.get? name = some a ↔ (name, a) ∈ m.entries :=
  ⟨mem_of_find, find_of_mem m.sorted⟩

theorem contains_of_get? {m : NameMap α} {name : String} {a : α} (h : m.get? name = some a) :
    m.contains name = true := by
  rw [contains, h]
  rfl

theorem mem_names_of_get? {m : NameMap α} {name : String} {a : α} (h : m.get? name = some a) :
    name ∈ m.names :=
  List.mem_map_of_mem (f := Prod.fst) (get?_eq_some_iff.1 h)

theorem eq_of_find_eq {l₁ l₂ : List (String × α)} (h₁ : Sorted l₁) (h₂ : Sorted l₂)
    (h : ∀ name, find name l₁ = find name l₂) : l₁ = l₂ := by
  induction l₁ generalizing l₂ with
  | nil =>
    cases l₂ with
    | nil => rfl
    | cons hd tl => simpa [find] using h hd.1
  | cons hd tl ih =>
    cases l₂ with
    | nil => simpa [find] using h hd.1
    | cons hd' tl' =>
      obtain ⟨k, a⟩ := hd
      obtain ⟨k', a'⟩ := hd'
      have hc := List.pairwise_cons.1 h₁
      have hc' := List.pairwise_cons.1 h₂
      have hk : k = k' := by
        rcases Decidable.em (k < k') with hlt | hge
        · have := h k
          rw [find, if_pos rfl, find_eq_none_of_lt] at this
          · simp at this
          · intro e he
            rcases List.mem_cons.1 he with rfl | he
            · exact hlt
            · exact String.lt_trans hlt (hc'.1 e he)
        · rcases Decidable.em (k' < k) with hlt | hge'
          · have := h k'
            rw [find.eq_2 k' k' a' tl', if_pos rfl, find_eq_none_of_lt] at this
            · simp at this
            · intro e he
              rcases List.mem_cons.1 he with rfl | he
              · exact hlt
              · exact String.lt_trans hlt (hc.1 e he)
          · exact String.le_antisymm (String.not_lt.1 hge') (String.not_lt.1 hge)
      subst hk
      have ha : a = a' := by simpa [find] using h k
      subst ha
      congr 1
      refine ih hc.2 hc'.2 fun name => ?_
      have := h name
      by_cases hn : k = name
      · subst hn
        rw [find_eq_none_of_lt hc.1, find_eq_none_of_lt hc'.1]
      · simpa [find, hn] using this

theorem ext_get? {m₁ m₂ : NameMap α} (h : ∀ name, m₁.get? name = m₂.get? name) : m₁ = m₂ := by
  obtain ⟨l₁, h₁⟩ := m₁
  obtain ⟨l₂, h₂⟩ := m₂
  have := eq_of_find_eq h₁ h₂ h
  subst this
  rfl

theorem insert_comm {m : NameMap α} {name other : String} (h : name ≠ other) (a b : α) :
    (m.insert name a).insert other b = (m.insert other b).insert name a := by
  refine ext_get? fun key => ?_
  simp only [get?_insert]
  by_cases hn : name = key
  · rw [if_neg fun ho => h (hn.trans ho.symm), if_pos hn, if_pos hn]
  · rw [if_neg hn, if_neg hn]

end NameMap

end SchemaLang
