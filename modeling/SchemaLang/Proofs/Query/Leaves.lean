import Mathlib.Data.List.Basic
import SchemaLang.Proofs.Number.Digits
import SchemaLang.Proofs.Text.Percent
import SchemaLang.Proofs.Value.Texts

/-!
# The leaves of a value

A query has one pair for every leaf of a value, which is written with the way to it.

* `pairsAre`: the pairs of a value that does not stand at the top.
* `encode_container`: the query that an array or object is written as.
-/

namespace SchemaLang.Query

open Value (members)

/-- A text at the end of a way. -/
structure Leaf where
  way : List String
  text : String
  deriving DecidableEq

def Leaf.under (segment : String) (l : Leaf) : Leaf := ⟨segment :: l.way, l.text⟩

mutual

def leaves : Value → List Leaf
  | .array [] => [⟨[], ""⟩]
  | .array (v :: items) => itemLeaves 0 (v :: items)
  | .object [] => [⟨[], ""⟩]
  | .object (e :: entries) =>
    (sortByName (memberLeaves (e :: entries))).flatMap fun m => m.2.map (Leaf.under m.1)
  | v => [⟨[], v.bareText⟩]

def itemLeaves (i : Nat) : List Value → List Leaf
  | [] => []
  | v :: items => (leaves v).map (Leaf.under (toString i)) ++ itemLeaves (i + 1) items

def memberLeaves : List (Key × Value) → List (String × List Leaf)
  | [] => []
  | (k, v) :: entries => (k.toText, leaves v) :: memberLeaves entries

end

theorem memberLeaves_eq_map (entries : List (Key × Value)) :
    memberLeaves entries = (members entries).map fun m => (m.1, leaves m.2) := by
  induction entries with
  | nil => rfl
  | cons e entries ih =>
    rw [memberLeaves, ih]
    rfl

theorem memberPairs_eq_map (entries : List (Key × Value)) :
    memberPairs entries = (members entries).map fun m => (m.1, pairs m.2) := by
  induction entries with
  | nil => rfl
  | cons e entries ih =>
    rw [memberPairs, ih]
    rfl

theorem leaves_object {entries : List (Key × Value)} (h : entries ≠ []) :
    leaves (.object entries) = (sortByName (members entries)).flatMap fun m =>
      (leaves m.2).map (Leaf.under m.1) := by
  obtain ⟨e, entries, rfl⟩ := List.exists_cons_of_ne_nil h
  rw [leaves, memberLeaves_eq_map, sortByName_map, List.flatMap_map]

theorem leaves_array {items : List Value} (h : items ≠ []) :
    leaves (.array items) = itemLeaves 0 items := by
  obtain ⟨v, items, rfl⟩ := List.exists_cons_of_ne_nil h
  rw [leaves]

theorem leaves_scalar {v : Value} (h : v.isContainer = false) :
    leaves v = [⟨[], v.bareText⟩] := by
  cases v with
  | array items => simp [Value.isContainer] at h
  | object entries => simp [Value.isContainer] at h
  | _ => rfl

theorem pairs_object {entries : List (Key × Value)} (h : entries ≠ []) (parent : Option String) :
    pairs (.object entries) parent = (sortByName (members entries)).flatMap fun m =>
      pairs m.2 (some (joinKey parent (Text.Percent.encode m.1))) := by
  obtain ⟨e, entries, rfl⟩ := List.exists_cons_of_ne_nil h
  rw [pairs, memberPairs_eq_map, sortByName_map]
  exact List.flatMap_map _ _ _

theorem pairs_scalar {v : Value} (h : v.isContainer = false) (parent : Option String) :
    pairs v parent = [leafPair parent (Text.Percent.encode v.bareText)] := by
  cases v with
  | array items => simp [Value.isContainer] at h
  | object entries => simp [Value.isContainer] at h
  | _ => rfl

/-! ## Pairs -/

/-- A way as it is written. -/
def keyText (way : List String) : String := ".".intercalate (way.map Text.Percent.encode)

/-- The key that stands before the keys inside a value. -/
def parentOf (way : List String) : Option String := if way = [] then none else some (keyText way)

def Leaf.pair (l : Leaf) : String := keyText l.way ++ "=" ++ Text.Percent.encode l.text

def Leaf.after (way : List String) (l : Leaf) : Leaf := ⟨way ++ l.way, l.text⟩

theorem Leaf.after_under (way : List String) (segment : String) (l : Leaf) :
    (l.under segment).after way = l.after (way ++ [segment]) := by
  rw [under, after, after, List.append_assoc, List.singleton_append]

theorem parentOf_append (way : List String) (segment : String) :
    parentOf (way ++ [segment])
      = some (joinKey (parentOf way) (Text.Percent.encode segment)) := by
  rw [parentOf, if_neg (by simp), keyText, List.map_append, parentOf]
  by_cases h : way = []
  · rw [if_pos h, h]
    simp [joinKey]
  · rw [if_neg h, String.intercalate_append_of_ne_nil (by simpa using h) (by simp)]
    simp [joinKey, keyText]

theorem encode_toString (i : Nat) : Text.Percent.encode (toString i) = toString i := by
  apply Text.Percent.encode_of_isDigit
  intro c hc
  rw [show (toString i).toList = Nat.toDigits 10 i from Nat.toList_repr] at hc
  exact Number.isDigit_of_mem_toDigits hc

theorem encode_empty : Text.Percent.encode "" = "" :=
  Text.Percent.encode_of_isDigit (by simp)

/-- The pairs of a value are its leaves, with the way to the value before the way inside it. -/
def PairsAre (way : List String) (v : Value) : Prop :=
  pairs v (parentOf way) = (leaves v).map fun l => (l.after way).pair

theorem pairs_under {way : List String} {segment : String} {v : Value}
    (h : PairsAre (way ++ [segment]) v) :
    pairs v (some (joinKey (parentOf way) (Text.Percent.encode segment)))
      = ((leaves v).map (Leaf.under segment)).map fun l => (l.after way).pair := by
  rw [← parentOf_append, h, List.map_map]
  exact List.map_congr_left fun l _ => by rw [Function.comp_apply, Leaf.after_under]

theorem itemPairs_eq {way : List String} {items : List Value}
    (h : ∀ v ∈ items, ∀ segment, PairsAre (way ++ [segment]) v) (i : Nat) :
    itemPairs i items (parentOf way) = (itemLeaves i items).map fun l => (l.after way).pair := by
  induction items generalizing i with
  | nil => rfl
  | cons v items ih =>
    obtain ⟨hv, hi⟩ := List.forall_mem_cons.1 h
    have hp := pairs_under (hv (toString i))
    rw [encode_toString] at hp
    rw [itemPairs, itemLeaves, List.map_append, hp, ih hi]

theorem pairsAre_array {way : List String} {items : List Value} (hne : items ≠ [])
    (h : ∀ v ∈ items, ∀ segment, PairsAre (way ++ [segment]) v) : PairsAre way (.array items) := by
  rw [PairsAre, leaves_array hne, ← itemPairs_eq h]
  obtain ⟨v, items, rfl⟩ := List.exists_cons_of_ne_nil hne
  rw [pairs]

theorem pairsAre_object {way : List String} {entries : List (Key × Value)} (hne : entries ≠ [])
    (h : ∀ e ∈ entries, ∀ segment, PairsAre (way ++ [segment]) e.2) :
    PairsAre way (.object entries) := by
  rw [PairsAre, pairs_object hne, leaves_object hne, List.map_flatMap]
  apply List.flatMap_congr
  intro m hm
  obtain ⟨e, he, rfl⟩ := List.mem_map.1 ((sortByName_perm _).subset hm)
  exact pairs_under (h e he _)

theorem pairsAre (v : Value) {way : List String} (hne : way ≠ []) : PairsAre way v := by
  induction v generalizing way with
  | scalar v hs =>
    rw [PairsAre, pairs_scalar hs, leaves_scalar hs, parentOf, if_neg hne]
    simp [leafPair, Leaf.pair, Leaf.after]
  | array items ih =>
    by_cases hi : items = []
    · rw [hi, PairsAre, parentOf, if_neg hne, pairs, leaves]
      simp [emptyPairs, Leaf.pair, Leaf.after, encode_empty]
    · exact pairsAre_array hi fun v hv segment => ih v hv (by simp)
  | object entries ih =>
    by_cases he : entries = []
    · rw [he, PairsAre, parentOf, if_neg hne, pairs, leaves]
      simp [emptyPairs, Leaf.pair, Leaf.after, encode_empty]
    · exact pairsAre_object he fun e hm segment => ih e hm (by simp)

/-! ## Queries -/

/-- A container that has something in it, so that every pair of its query has a key. -/
def HasParts : Value → Prop
  | .array items => items ≠ []
  | .object entries => entries ≠ []
  | _ => False

theorem encode_container {v : Value} (h : HasParts v) :
    encode v = "&".intercalate ((leaves v).map Leaf.pair) := by
  have hp : PairsAre [] v := by
    cases v with
    | array items => exact pairsAre_array h fun v _ segment => pairsAre v (by simp)
    | object entries => exact pairsAre_object h fun e _ segment => pairsAre e.2 (by simp)
    | _ => exact h.elim
  rw [encode, show none = parentOf [] from rfl, hp]
  congr 1

theorem way_ne_nil_of_mem_itemLeaves {items : List Value} {i : Nat} {l : Leaf}
    (h : l ∈ itemLeaves i items) : l.way ≠ [] := by
  induction items generalizing i with
  | nil => simp [itemLeaves] at h
  | cons v items ih =>
    rw [itemLeaves, List.mem_append] at h
    rcases h with h | h
    · obtain ⟨l, -, rfl⟩ := List.mem_map.1 h
      simp [Leaf.under]
    · exact ih h

theorem way_ne_nil {v : Value} (h : HasParts v) : ∀ l ∈ leaves v, l.way ≠ [] := by
  intro l hl
  cases v with
  | array items =>
    rw [leaves_array h] at hl
    exact way_ne_nil_of_mem_itemLeaves hl
  | object entries =>
    rw [leaves_object h] at hl
    obtain ⟨m, -, hl⟩ := List.mem_flatMap.1 hl
    obtain ⟨l, -, rfl⟩ := List.mem_map.1 hl
    simp [Leaf.under]
  | _ => exact h.elim

end SchemaLang.Query
