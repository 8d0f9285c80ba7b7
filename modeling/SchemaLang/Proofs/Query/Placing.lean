import SchemaLang.Proofs.Query.Leaves
import SchemaLang.Proofs.Value.Json
import SchemaLang.Query.Decode

/-!
# Putting the leaves of a value

The leaves of a value, put one after the other at the ends of their ways, make the value again,
with texts for its scalars and its members in order.  The leaves of an item or of a member change
nothing but what stands at its place.

* `placeAll_leaves`: what the leaves of a value make.
-/

namespace SchemaLang.Query

open Value (members texts asTexts Writable)

/-- An object whose members are not taken for the items of an array or for members of members. -/
def Addressable : Value → Prop
  | .object entries => (∀ t ∈ texts entries, '.' ∉ t.toList)
      ∧ ¬("0" ∈ texts entries ∧ ∀ t ∈ texts entries, "0" ≤ t)
  | _ => True

/-- An object whose members are not taken for members of members. -/
def Unpointed : Value → Prop
  | .object entries => ∀ t ∈ texts entries, '.' ∉ t.toList
  | _ => True

/-- An object whose members are not taken for the items of an array. -/
def Named : Value → Prop
  | .object entries => ¬("0" ∈ texts entries ∧ ∀ t ∈ texts entries, "0" ≤ t)
  | _ => True

theorem Addressable.unpointed {v : Value} (h : Addressable v) : Unpointed v := by
  cases v with
  | object entries => exact h.1
  | _ => trivial

theorem Addressable.named {v : Value} (h : Addressable v) : Named v := by
  cases v with
  | object entries => exact h.2
  | _ => trivial

def placeAll (v : Value) : List Leaf → Except Conflict Value
  | [] => .ok v
  | l :: rest => do
    let v ← place l.text l.way v
    placeAll v rest

theorem placeAll_append {v w : Value} {ls rest : List Leaf} (h : placeAll v ls = .ok w) :
    placeAll v (ls ++ rest) = placeAll w rest := by
  induction ls generalizing v with
  | nil =>
    cases h
    rfl
  | cons l ls ih =>
    rw [placeAll] at h
    rw [List.cons_append, placeAll]
    cases hp : place l.text l.way v with
    | error e => simp [hp, Bind.bind, Except.bind] at h
    | ok u =>
      rw [hp] at h
      exact ih h

/-! ## One place of a container -/

/-- `put` puts a value at the place of a container that a segment leads to, where `old` stands. -/
def Focus (segment : String) (v old : Value) (put : Value → Value) : Prop :=
  ∀ text way, place text (segment :: way) v = (place text way old).map put

theorem placeAll_under {segment : String} {v old : Value} {put : Value → Value}
    (hv : Focus segment v old put) (hput : ∀ x, Focus segment (put x) x put) {ls : List Leaf}
    (hne : ls ≠ []) :
    placeAll v (ls.map (Leaf.under segment)) = (placeAll old ls).map put := by
  induction ls generalizing v old with
  | nil => exact absurd rfl hne
  | cons l ls ih =>
    rw [List.map_cons, placeAll, placeAll]
    show (place l.text (segment :: l.way) v).bind _ = _
    rw [hv]
    cases hp : place l.text l.way old with
    | error e => rfl
    | ok u =>
      show placeAll (put u) (ls.map (Leaf.under segment)) = (placeAll u ls).map put
      cases ls with
      | nil => rfl
      | cons l' ls => exact ih (hput u) (by simp)

theorem index?_toString {i length : Nat} (h : i < 2 ^ 63) (hl : i ≤ length) :
    index? (toString i) length = some i := by
  have hi : (Int64.ofInt i).toInt = i := Int64.toInt_ofInt_of_le (by omega) (by omega)
  have hn := Number.int64?_toString (Int64.ofInt i)
  rw [hi] at hn
  have hs : Number.int64? (toString i).toList = some (Int64.ofInt i) := hn
  rw [index?, hs, Option.bind_some, hi, if_pos ⟨Int.natCast_nonneg i, by simpa using hl⟩]
  rfl

theorem focus_of_index {items : List Value} {segment : String} {i : Nat}
    (h : index? segment items.length = some i) :
    Focus segment (.array items) (items.getD i .null)
      fun y => .array (items.take i ++ y :: items.drop (i + 1)) := by
  intro text way
  rw [place]
  simp only [containerFor, h]
  show (place text way (items.getD i .null)).bind _ = _
  cases place text way (items.getD i .null) with
  | error e => rfl
  | ok y => rfl

theorem focus_item {done : List Value} (h : done.length < 2 ^ 63) (x : Value) :
    Focus (toString done.length) (.array (done ++ [x])) x fun y => .array (done ++ [y]) := by
  have hi : index? (toString done.length) (done ++ [x]).length = some done.length :=
    index?_toString h (by simp)
  simpa using focus_of_index hi

theorem focus_next_item {done : List Value} (h : done.length < 2 ^ 63) :
    Focus (toString done.length) (.array done) .null fun y => .array (done ++ [y]) := by
  have hi : index? (toString done.length) done.length = some done.length :=
    index?_toString h (Nat.le_refl _)
  simpa [List.drop_eq_nil_of_le] using focus_of_index hi

theorem focus_object (entries : List (Key × Value)) (segment : String) :
    Focus segment (.object entries) ((Entries.get? (.text segment) entries).getD .null)
      fun y => .object (Entries.put (.text segment) y entries) := by
  intro text way
  show ((place text way _).bind _ : Except Conflict Value) = _
  cases place text way ((Entries.get? (.text segment) entries).getD .null) with
  | error e => rfl
  | ok y => rfl

theorem focus_member {done : List (Key × Value)} {name : String}
    (h : .text name ∉ Entries.keys done) (x : Value) :
    Focus name (.object (done ++ [(.text name, x)])) x
      fun y => .object (done ++ [(.text name, y)]) := by
  have hf := focus_object (done ++ [(.text name, x)]) name
  rw [← Entries.put_of_not_mem h, Entries.get?_put, if_pos rfl] at hf
  simp only [Entries.put_put] at hf
  simp only [Entries.put_of_not_mem h] at hf
  exact hf

theorem focus_next_member {done : List (Key × Value)} {name : String}
    (h : .text name ∉ Entries.keys done) :
    Focus name (.object done) .null fun y => .object (done ++ [(.text name, y)]) := by
  have hf := focus_object done name
  rw [Entries.get?_eq_none_iff.2 h] at hf
  simp only [Entries.put_of_not_mem h] at hf
  exact hf

/-! ## Items and members one after the other -/

theorem leaves_ne_nil (v : Value) : leaves v ≠ [] := by
  induction v with
  | scalar v hs => simp [leaves_scalar hs]
  | array items ih =>
    cases items with
    | nil => simp [leaves]
    | cons v items => simp [leaves, itemLeaves, ih v List.mem_cons_self]
  | object entries ih =>
    cases entries with
    | nil => simp [leaves]
    | cons e entries =>
      rw [leaves_object (by simp)]
      intro hn
      have hm : (e.1.toText, e.2) ∈ sortByName (members (e :: entries)) :=
        (sortByName_perm _).symm.subset List.mem_cons_self
      have hnil := List.flatMap_eq_nil_iff.1 hn _ hm
      exact ih e List.mem_cons_self (List.map_eq_nil_iff.1 hnil)

theorem placeAll_itemLeaves {items : List Value} {f : Value → Value}
    (h : ∀ v ∈ items, placeAll .null (leaves v) = .ok (f v)) (done : List Value)
    (hl : done.length + items.length ≤ 2 ^ 63) :
    placeAll (.array done) (itemLeaves done.length items) = .ok (.array (done ++ items.map f)) := by
  induction items generalizing done with
  | nil =>
    rw [itemLeaves, placeAll, List.map_nil, List.append_nil]
  | cons v items ih =>
    obtain ⟨hv, hi⟩ := List.forall_mem_cons.1 h
    rw [List.length_cons] at hl
    have hd : done.length < 2 ^ 63 := by omega
    have hp := placeAll_under (focus_next_item hd) (focus_item hd) (leaves_ne_nil v)
    rw [hv] at hp
    have hnext := ih hi (done ++ [f v]) (by simp; omega)
    rw [List.length_append, List.append_assoc] at hnext
    rw [itemLeaves, placeAll_append hp]
    exact hnext

theorem placeAll_memberLeaves {ms : List (String × Value)} {f : Value → Value}
    (h : ∀ m ∈ ms, placeAll .null (leaves m.2) = .ok (f m.2)) (done : List (Key × Value))
    (hn : (Entries.keys done ++ ms.map fun m => Key.text m.1).Nodup) :
    placeAll (.object done) (ms.flatMap fun m => (leaves m.2).map (Leaf.under m.1))
      = .ok (.object (done ++ ms.map fun m => (.text m.1, f m.2))) := by
  induction ms generalizing done with
  | nil =>
    rw [List.flatMap_nil, placeAll, List.map_nil, List.append_nil]
  | cons m ms ih =>
    obtain ⟨hm, hms⟩ := List.forall_mem_cons.1 h
    have hk : .text m.1 ∉ Entries.keys done := fun hk =>
      (List.disjoint_of_nodup_append hn) hk List.mem_cons_self
    have hp := placeAll_under (focus_next_member hk) (focus_member hk) (leaves_ne_nil m.2)
    rw [hm] at hp
    have hnext := ih hms (done ++ [(.text m.1, f m.2)]) (by simpa [Entries.keys] using hn)
    rw [List.append_assoc] at hnext
    rw [List.flatMap_cons, placeAll_append hp]
    exact hnext

theorem containerFor_containerFor (segment : String) (v : Value) :
    containerFor segment (containerFor segment v) = containerFor segment v := by
  cases v with
  | null =>
    rw [containerFor]
    split <;> rfl
  | _ => rfl

/-- The first segment makes the container that it asks for. -/
theorem placeAll_null {l : Leaf} {segment : String} {ls : List Leaf} :
    placeAll .null (l.under segment :: ls)
      = placeAll (containerFor segment .null) (l.under segment :: ls) := by
  have hp : place l.text (segment :: l.way) .null
      = place l.text (segment :: l.way) (containerFor segment .null) := by
    rw [place, place, containerFor_containerFor]
  rw [placeAll, placeAll]
  show (place l.text (segment :: l.way) _).bind _ = (place l.text (segment :: l.way) _).bind _
  rw [hp]

theorem placeAll_array {items : List Value} {f : Value → Value} (hne : items ≠ [])
    (h : ∀ v ∈ items, placeAll .null (leaves v) = .ok (f v)) (hl : items.length < 2 ^ 63) :
    placeAll .null (leaves (.array items)) = .ok (.array (items.map f)) := by
  have hp := placeAll_itemLeaves h [] (by simp; omega)
  rw [leaves_array hne]
  obtain ⟨v, items, rfl⟩ := List.exists_cons_of_ne_nil hne
  obtain ⟨l, ls, hls⟩ := List.exists_cons_of_ne_nil (leaves_ne_nil v)
  rw [List.length_nil, itemLeaves, hls, List.map_cons, List.cons_append] at hp
  rw [itemLeaves, hls, List.map_cons, List.cons_append, placeAll_null]
  exact hp

theorem ne_zero_of_named {entries : List (Key × Value)} {m : String × Value}
    {rest : List (String × Value)} (ha : Named (.object entries))
    (h : sortByName (members entries) = m :: rest) : m.1 ≠ "0" := by
  have hm : m ∈ members entries := (sortByName_perm _).subset (h ▸ List.mem_cons_self)
  have ht : texts entries = (members entries).map Prod.fst := by
    rw [texts, members, List.map_map]
    rfl
  intro h0
  refine ha ⟨?_, fun t hmem => ?_⟩
  · rw [ht, ← h0]
    exact List.mem_map_of_mem hm
  · rw [ht] at hmem
    obtain ⟨c, hc, rfl⟩ := List.mem_map.1 hmem
    exact h0 ▸ le_of_mem_sortByName h hc

theorem placeAll_object {entries : List (Key × Value)} {f : Value → Value} (hne : entries ≠ [])
    (h : ∀ e ∈ entries, placeAll .null (leaves e.2) = .ok (f e.2))
    (hn : (texts entries).Nodup) (ha : Named (.object entries)) :
    placeAll .null (leaves (.object entries))
      = .ok (.object ((sortByName (members entries)).map fun m => (.text m.1, f m.2))) := by
  have hperm := sortByName_perm (members entries)
  have hm : ∀ m ∈ sortByName (members entries), placeAll .null (leaves m.2) = .ok (f m.2) := by
    intro m hm
    obtain ⟨e, he, rfl⟩ := List.mem_map.1 (hperm.subset hm)
    exact h e he
  have hnodup : ((sortByName (members entries)).map fun m => Key.text m.1).Nodup := by
    rw [(hperm.map _).nodup_iff, members, List.map_map]
    have hk := hn.map (f := Key.text) fun a b h => Key.text.inj h
    rw [texts, List.map_map] at hk
    exact hk
  have hp := placeAll_memberLeaves hm [] (by simpa [Entries.keys] using hnodup)
  rw [leaves_object hne]
  obtain ⟨m, rest, hs⟩ : ∃ m rest, sortByName (members entries) = m :: rest := by
    refine List.exists_cons_of_ne_nil fun hnil => hne ?_
    rw [hnil] at hperm
    exact List.map_eq_nil_iff.1 hperm.symm.eq_nil
  obtain ⟨l, ls, hls⟩ := List.exists_cons_of_ne_nil (leaves_ne_nil m.2)
  rw [hs, List.flatMap_cons, hls, List.map_cons, List.cons_append] at hp ⊢
  rw [placeAll_null, containerFor, if_neg (ne_zero_of_named ha hs)]
  exact hp

theorem placeAll_leaves {v : Value} (hw : v.Throughout Writable)
    (ha : v.Throughout Named) :
    placeAll .null (leaves v) = .ok (asTexts sortByName v) := by
  induction v with
  | scalar v hs =>
    rw [leaves_scalar hs, Value.asTexts_scalar hs]
    rfl
  | array items ih =>
    by_cases hne : items = []
    · rw [hne]
      rfl
    · rw [Value.asTexts_array hne]
      exact placeAll_array hne (fun v hv => ih v hv (hw.item v hv) (ha.item v hv)) hw.self
  | object entries ih =>
    by_cases hne : entries = []
    · rw [hne]
      rfl
    · rw [Value.asTexts_object_sort hne]
      exact placeAll_object hne (fun e he => ih e he (hw.entry e he) (ha.entry e he)) hw.self
        ha.self

end SchemaLang.Query
