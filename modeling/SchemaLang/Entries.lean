/-!
# Entries in insertion order

A finite map kept as the list of its entries, in the order in which their keys were first put.
Putting a key again keeps its place and replaces its value.

* `get?_put`: what a key maps to after another has been put.
* `nodup_keys_put`: keys stay distinct.
-/

namespace SchemaLang.Entries

variable {κ : Type} [DecidableEq κ] {α : Type}

def get? (key : κ) : List (κ × α) → Option α
  | [] => none
  | (k, a) :: entries => if k = key then some a else get? key entries

def put (key : κ) (a : α) : List (κ × α) → List (κ × α)
  | [] => [(key, a)]
  | (k, b) :: entries => if k = key then (k, a) :: entries else (k, b) :: put key a entries

/-- The entries of a list of pairs, put one after the other. -/
def ofList (pairs : List (κ × α)) : List (κ × α) :=
  pairs.foldl (fun entries pair => put pair.1 pair.2 entries) []

def keys (entries : List (κ × α)) : List κ := entries.map Prod.fst

theorem get?_put (key other : κ) (a : α) (entries : List (κ × α)) :
    get? other (put key a entries) = if key = other then some a else get? other entries := by
  induction entries with
  | nil => simp [get?, put]
  | cons entry entries ih =>
    obtain ⟨k, b⟩ := entry
    by_cases hk : k = key
    · subst hk
      by_cases ho : k = other <;> simp [get?, put, ho]
    · by_cases ho : k = other
      · subst ho
        simp [get?, put, hk, Ne.symm hk]
      · simp [get?, put, hk, ho, ih]

theorem mem_keys_put {key other : κ} {a : α} {entries : List (κ × α)} :
    other ∈ keys (put key a entries) ↔ other = key ∨ other ∈ keys entries := by
  induction entries with
  | nil => simp [keys, put]
  | cons entry entries ih =>
    obtain ⟨k, b⟩ := entry
    simp only [keys, put] at ih ⊢
    by_cases hk : k = key
    · subst hk
      simp
    · simp only [hk, if_false, List.map_cons, List.mem_cons, ih]
      exact or_left_comm

theorem nodup_keys_put {key : κ} {a : α} {entries : List (κ × α)} (h : (keys entries).Nodup) :
    (keys (put key a entries)).Nodup := by
  induction entries with
  | nil => simp [keys, put]
  | cons entry entries ih =>
    obtain ⟨k, b⟩ := entry
    have hc := List.nodup_cons.1 h
    by_cases hk : k = key
    · simpa [keys, put, hk] using h
    · have hm : k ∉ keys (put key a entries) := mt mem_keys_put.1 (not_or.2 ⟨hk, hc.1⟩)
      simpa [keys, put, hk] using And.intro hm (ih hc.2)

end SchemaLang.Entries
