import Mathlib.Data.List.Perm.Basic
import SchemaLang.Proofs.Value.Json
import SchemaLang.Proofs.Value.Texts

/-!
# Values whose entries stand in another order

The entries of both values are listed together, so that what is known of them is known pair by
pair.

* `rearranged_asTexts`: members in order are a rearrangement.
-/

namespace SchemaLang

/-- A list that is a permutation of images is the image of a permutation. -/
theorem exists_perm_map {α β : Type} {f : α → β} {l : List α} {l' : List β}
    (h : l'.Perm (l.map f)) : ∃ m : List α, m.Perm l ∧ l' = m.map f := by
  generalize hr : l.map f = r at h
  induction h generalizing l with
  | nil => exact ⟨[], by rw [List.map_eq_nil_iff.1 hr], rfl⟩
  | cons b _ ih =>
    obtain ⟨a, as, rfl, rfl, has⟩ := List.map_eq_cons_iff.1 hr
    obtain ⟨m, hm, rfl⟩ := ih has
    exact ⟨a :: m, hm.cons a, rfl⟩
  | swap b c bs =>
    obtain ⟨a, as, rfl, rfl, has⟩ := List.map_eq_cons_iff.1 hr
    obtain ⟨a', as', rfl, rfl, rfl⟩ := List.map_eq_cons_iff.1 has
    exact ⟨a' :: a :: as', List.Perm.swap a a' as', rfl⟩
  | trans _ _ ih₁ ih₂ =>
    obtain ⟨m₂, hm₂, rfl⟩ := ih₂ hr
    obtain ⟨m₁, hm₁, rfl⟩ := ih₁ rfl
    exact ⟨m₁, hm₁.trans hm₂, rfl⟩

namespace Value

/-- The first value has the entries of the second, in any order in every object. -/
inductive Rearranged : Value → Value → Prop
  | scalar {v : Value} (hs : v.isContainer = false) : Rearranged v v
  | array (ps : List (Value × Value)) (h : ∀ p ∈ ps, Rearranged p.1 p.2) :
      Rearranged (.array (ps.map Prod.fst)) (.array (ps.map Prod.snd))
  | object {entries : List (Key × Value)} (ps : List (Key × Value × Value))
      (hp : entries.Perm (ps.map fun p => (p.1, p.2.1))) (h : ∀ p ∈ ps, Rearranged p.2.1 p.2.2) :
      Rearranged (.object entries) (.object (ps.map fun p => (p.1, p.2.2)))

theorem Rearranged.refl (v : Value) : Rearranged v v := by
  induction v with
  | scalar v hs => exact .scalar hs
  | array items ih =>
    have h := Rearranged.array (items.map fun v => (v, v)) fun p hp => by
      obtain ⟨v, hv, rfl⟩ := List.mem_map.1 hp
      exact ih v hv
    simpa only [List.map_map, Function.comp_def, List.map_id'] using h
  | object entries ih =>
    have h : Rearranged (.object entries) _ := .object (entries.map fun e => (e.1, e.2, e.2))
      (by simp [Function.comp_def]) fun p hp => by
        obtain ⟨e, he, rfl⟩ := List.mem_map.1 hp
        exact ih e he
    simpa only [List.map_map, Function.comp_def, List.map_id'] using h

theorem Rearranged.eq_of_scalar {v' v : Value} (h : Rearranged v' v)
    (hs : v.isContainer = false) : v' = v := by
  cases h with
  | scalar _ => rfl
  | array _ _ => simp [isContainer] at hs
  | object _ _ _ => simp [isContainer] at hs

theorem Rearranged.isNull_eq {v' v : Value} (h : Rearranged v' v) : v'.isNull = v.isNull := by
  cases h <;> rfl

theorem Rearranged.isNullText_eq {v' v : Value} (h : Rearranged v' v) :
    v'.isNullText = v.isNullText := by
  cases h <;> rfl

/-- Only the items of an array are rearranged, each in its place. -/
theorem Rearranged.items? {v' v : Value} {items : List Value} (h : Rearranged v' v)
    (hi : v.items? = some items) : v' = v ∨ ∃ ps : List (Value × Value),
      v' = .array (ps.map Prod.fst) ∧ items = ps.map Prod.snd ∧ ∀ p ∈ ps, Rearranged p.1 p.2 := by
  cases h with
  | scalar _ => exact .inl rfl
  | array ps h => exact .inr ⟨ps, rfl, (Option.some.inj hi).symm, h⟩
  | object _ _ _ => simp [Value.items?] at hi

theorem Rearranged.entries? {v' v : Value} {entries : List (Key × Value)} (h : Rearranged v' v)
    (he : v.entries? = some entries) : v' = v ∨ ∃ entries', ∃ ps : List (Key × Value × Value),
      v' = .object entries' ∧ entries = (ps.map fun p => (p.1, p.2.2))
        ∧ entries'.Perm (ps.map fun p => (p.1, p.2.1)) ∧ ∀ p ∈ ps, Rearranged p.2.1 p.2.2 := by
  cases h with
  | scalar _ => exact .inl rfl
  | array _ _ => simp [Value.entries?] at he
  | object ps hp h => exact .inr ⟨_, ps, rfl, (Option.some.inj he).symm, hp, h⟩

theorem rearranged_asTexts (w : Value) :
    Rearranged (asTexts Query.sortByName w) (asTexts id w) := by
  induction w with
  | scalar v hs =>
    rw [asTexts_scalar hs, asTexts_scalar hs]
    exact .scalar rfl
  | array items ih =>
    by_cases hne : items = []
    · rw [hne]
      exact .scalar rfl
    · have h := Rearranged.array
        (items.map fun v => (asTexts Query.sortByName v, asTexts id v)) fun p hp => by
          obtain ⟨v, hv, rfl⟩ := List.mem_map.1 hp
          exact ih v hv
      rw [asTexts_array hne, asTexts_array hne]
      simpa only [List.map_map, Function.comp_def] using h
  | object entries ih =>
    by_cases hne : entries = []
    · rw [hne]
      exact .scalar rfl
    · have hp : ((Query.sortByName (members entries)).map fun m =>
          ((Key.text m.1, asTexts Query.sortByName m.2) : Key × Value)).Perm
          ((entries.map fun e => (Key.text e.1.toText, asTexts Query.sortByName e.2,
            asTexts id e.2)).map fun p => (p.1, p.2.1)) := by
        refine ((Query.sortByName_perm (members entries)).map _).trans (List.Perm.of_eq ?_)
        rw [members, List.map_map, List.map_map]
        rfl
      have h := Rearranged.object _ hp fun p hp => by
        obtain ⟨e, he, rfl⟩ := List.mem_map.1 hp
        exact ih e he
      rw [asTexts_object_sort hne, asTexts_object_id hne]
      simpa only [List.map_map, Function.comp_def] using h

/-- Texts alone can be written. -/
theorem writable_asTexts {w : Value} (h : w.Throughout Writable) :
    (asTexts id w).Throughout Writable := by
  induction w with
  | scalar v hs =>
    rw [asTexts_scalar hs]
    exact .scalar rfl trivial
  | array items ih =>
    by_cases hne : items = []
    · rw [hne]
      exact .scalar rfl trivial
    · rw [asTexts_array hne]
      refine .array ?_ fun v hv => ?_
      · show (items.map _).length < _
        rw [List.length_map]
        exact h.self
      · obtain ⟨w, hw, rfl⟩ := List.mem_map.1 hv
        exact ih w hw (h.item w hw)
  | object entries ih =>
    by_cases hne : entries = []
    · rw [hne]
      exact .scalar rfl trivial
    · rw [asTexts_object_id hne]
      refine .object ?_ fun e he => ?_
      · show (texts (entries.map _)).Nodup
        rw [texts, List.map_map]
        exact h.self
      · obtain ⟨e, hm, rfl⟩ := List.mem_map.1 he
        exact ih e hm (h.entry e hm)

end Value

end SchemaLang
