import SchemaLang.Proofs.Query.Order
import SchemaLang.Proofs.Value

/-!
# Values written with texts alone

A query has texts only: scalars are their texts, a container without anything inside is the empty
text, and keys are their texts.  `asTexts` writes a value in this way, with the members of objects
in some order.

* `asTexts_array`, `asTexts_object`: containers that are not empty stay what they are.
-/

namespace SchemaLang.Value

/-- An order of members. -/
abbrev Arrangement := List (String × Value) → List (String × Value)

mutual

def asTexts (order : Arrangement) : Value → Value
  | .array [] => .string ""
  | .array (v :: items) => .array (itemTexts order (v :: items))
  | .object [] => .string ""
  | .object (e :: entries) =>
    .object ((order (memberTexts order (e :: entries))).map fun m => (.text m.1, m.2))
  | v => .string v.bareText

def itemTexts (order : Arrangement) : List Value → List Value
  | [] => []
  | v :: items => asTexts order v :: itemTexts order items

def memberTexts (order : Arrangement) : List (Key × Value) → List (String × Value)
  | [] => []
  | (k, v) :: entries => (k.toText, asTexts order v) :: memberTexts order entries

end

/-- The members of an object by the texts of their keys. -/
def members (entries : List (Key × Value)) : List (String × Value) :=
  entries.map fun e => (e.1.toText, e.2)

variable {order : Arrangement}

theorem itemTexts_eq_map (items : List Value) :
    itemTexts order items = items.map (asTexts order) := by
  induction items with
  | nil => rfl
  | cons v items ih => rw [itemTexts, ih, List.map_cons]

theorem memberTexts_eq_map (entries : List (Key × Value)) :
    memberTexts order entries = (members entries).map fun m => (m.1, asTexts order m.2) := by
  induction entries with
  | nil => rfl
  | cons e entries ih =>
    rw [memberTexts, ih]
    rfl

theorem asTexts_scalar {v : Value} (h : v.isContainer = false) :
    asTexts order v = .string v.bareText := by
  cases v with
  | array items => simp [isContainer] at h
  | object entries => simp [isContainer] at h
  | _ => rfl

theorem asTexts_array {items : List Value} (h : items ≠ []) :
    asTexts order (.array items) = .array (items.map (asTexts order)) := by
  obtain ⟨v, items, rfl⟩ := List.exists_cons_of_ne_nil h
  rw [asTexts, itemTexts_eq_map]

theorem asTexts_object {entries : List (Key × Value)} (h : entries ≠ []) :
    asTexts order (.object entries)
      = .object ((order ((members entries).map fun m => (m.1, asTexts order m.2))).map fun m =>
        (.text m.1, m.2)) := by
  obtain ⟨e, entries, rfl⟩ := List.exists_cons_of_ne_nil h
  rw [asTexts, memberTexts_eq_map]

theorem asTexts_object_id {entries : List (Key × Value)} (h : entries ≠ []) :
    asTexts id (.object entries)
      = .object (entries.map fun e => (.text e.1.toText, asTexts id e.2)) := by
  rw [asTexts_object h, members, id_eq, List.map_map, List.map_map]
  rfl

theorem asTexts_object_sort {entries : List (Key × Value)} (h : entries ≠ []) :
    asTexts Query.sortByName (.object entries)
      = .object ((Query.sortByName (members entries)).map fun m =>
        (.text m.1, asTexts Query.sortByName m.2)) := by
  rw [asTexts_object h, Query.sortByName_map, List.map_map]
  rfl

end SchemaLang.Value
