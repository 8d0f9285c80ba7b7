import Mathlib.Data.List.Nodup
import SchemaLang.Query.Encode

/-!
# Members in the order of their names

* `sortByName_perm`: sorting only changes the order.
* `sortByName_map`: the order depends on the names alone.
* `le_of_mem_sortByName`: a least name comes first.
* `sortByName_eq_of_perm`: where names are distinct, the order of the members does not matter.
-/

namespace SchemaLang.Query

variable {α β : Type}

theorem insertByName_perm (name : String) (a : α) (members : List (String × α)) :
    (insertByName name a members).Perm ((name, a) :: members) := by
  induction members with
  | nil => exact List.Perm.refl _
  | cons m members ih =>
    obtain ⟨k, b⟩ := m
    rw [insertByName]
    split
    · exact (ih.cons (k, b)).trans (List.Perm.swap _ _ _)
    · exact List.Perm.refl _

theorem insertByName_map (f : α → β) (name : String) (a : α) (members : List (String × α)) :
    insertByName name (f a) (members.map fun m => (m.1, f m.2))
      = (insertByName name a members).map fun m => (m.1, f m.2) := by
  induction members with
  | nil => rfl
  | cons m members ih =>
    obtain ⟨k, b⟩ := m
    rw [List.map_cons, insertByName, insertByName, ih]
    split <;> rfl

/-- Sorting goes on from what has been sorted. -/
def sortOnto (sorted members : List (String × α)) : List (String × α) :=
  members.foldl (fun sorted m => insertByName m.1 m.2 sorted) sorted

theorem sortOnto_perm (sorted members : List (String × α)) :
    (sortOnto sorted members).Perm (sorted ++ members) := by
  induction members generalizing sorted with
  | nil =>
    rw [List.append_nil]
    exact List.Perm.refl _
  | cons m members ih =>
    refine (ih (insertByName m.1 m.2 sorted)).trans ?_
    exact ((insertByName_perm m.1 m.2 sorted).append_right members).trans
      List.perm_middle.symm

theorem sortOnto_map (f : α → β) (sorted members : List (String × α)) :
    sortOnto (sorted.map fun m => (m.1, f m.2)) (members.map fun m => (m.1, f m.2))
      = (sortOnto sorted members).map fun m => (m.1, f m.2) := by
  induction members generalizing sorted with
  | nil => rfl
  | cons m members ih =>
    show sortOnto (insertByName m.1 (f m.2) (sorted.map fun m => (m.1, f m.2)))
      (members.map fun m => (m.1, f m.2)) = _
    rw [insertByName_map, ih]
    rfl

theorem sortByName_perm (members : List (String × α)) :
    (sortByName members).Perm members := sortOnto_perm [] members

theorem sortByName_map (f : α → β) (members : List (String × α)) :
    sortByName (members.map fun m => (m.1, f m.2))
      = (sortByName members).map fun m => (m.1, f m.2) := sortOnto_map f [] members

/-! ## The first member -/

/-- In order, each name before those that it is less than. -/
def Ordered (members : List (String × α)) : Prop := members.Pairwise fun a b => a.1 ≤ b.1

theorem ordered_insertByName {name : String} {a : α} {members : List (String × α)}
    (h : Ordered members) : Ordered (insertByName name a members) := by
  induction members with
  | nil => exact List.pairwise_singleton _ _
  | cons m members ih =>
    obtain ⟨k, b⟩ := m
    obtain ⟨hm, hr⟩ := List.pairwise_cons.1 h
    rw [insertByName]
    split
    · next hk =>
      refine List.pairwise_cons.2 ⟨fun c hc => ?_, ih hr⟩
      rcases List.mem_cons.1 ((insertByName_perm name a members).subset hc) with rfl | hc
      · exact hk
      · exact hm c hc
    · next hk =>
      have hle : name ≤ k := (String.le_total name k).resolve_right hk
      refine List.pairwise_cons.2 ⟨fun c hc => ?_, h⟩
      rcases List.mem_cons.1 hc with rfl | hc
      · exact hle
      · exact String.le_trans hle (hm c hc)

theorem ordered_sortOnto {sorted members : List (String × α)} (h : Ordered sorted) :
    Ordered (sortOnto sorted members) := by
  induction members generalizing sorted with
  | nil => exact h
  | cons m members ih => exact ih (ordered_insertByName h)

theorem ordered_sortByName (members : List (String × α)) : Ordered (sortByName members) :=
  ordered_sortOnto List.Pairwise.nil

theorem le_of_mem_sortByName {members rest : List (String × α)} {m c : String × α}
    (h : sortByName members = m :: rest) (hc : c ∈ members) : m.1 ≤ c.1 := by
  have ho : Ordered (m :: rest) := h ▸ ordered_sortByName members
  have hm : c ∈ m :: rest := h ▸ (sortByName_perm members).symm.subset hc
  rcases List.mem_cons.1 hm with rfl | hm
  · exact String.le_refl _
  · exact (List.pairwise_cons.1 ho).1 c hm

/-- Where names are distinct there is one order. -/
theorem sortByName_eq_of_perm {members others : List (String × α)} (h : members.Perm others)
    (hn : (others.map Prod.fst).Nodup) : sortByName members = sortByName others := by
  have hperm : (sortByName members).Perm (sortByName others) :=
    (sortByName_perm members).trans (h.trans (sortByName_perm others).symm)
  refine hperm.eq_of_pairwise ?_ (ordered_sortByName members) (ordered_sortByName others)
  intro a b ha hb hab hba
  have ha' : a ∈ others := h.subset ((sortByName_perm members).subset ha)
  have hb' : b ∈ others := (sortByName_perm others).subset hb
  exact List.inj_on_of_nodup_map hn ha' hb' (String.le_antisymm hab hba)

end SchemaLang.Query
