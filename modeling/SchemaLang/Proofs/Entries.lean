import Mathlib.Data.List.Induction
import Mathlib.Data.List.Nodup
import Mathlib.Data.List.Perm.Basic
import SchemaLang.Entries

/-!
# Entries as a finite map

What a key maps to is one of the entries, putting pairs one after the other loses no key, and
pairs whose keys are distinct stay as they are.

* `ofList_eq_self`: distinct keys are put as they come.
* `mem_of_mem_ofList`, `mem_keys_ofList`: what is put comes from the pairs, and no key is lost.
* `get?_of_perm`: with distinct keys the order of the entries does not matter to a look-up.
* `keys_ofList`: keys stand where they have first been put.
-/

namespace SchemaLang.Entries

variable {κ : Type} [DecidableEq κ] {α : Type}

/-! ## Look-ups -/

theorem mem_of_get? {key : κ} {a : α} {entries : List (κ × α)} (h : get? key entries = some a) :
    (key, a) ∈ entries := by
  induction entries with
  | nil => simp [get?] at h
  | cons e entries ih =>
    obtain ⟨k, b⟩ := e
    by_cases hk : k = key
    · rw [get?, if_pos hk] at h
      rw [hk, Option.some.inj h]
      exact List.mem_cons_self
    · rw [get?, if_neg hk] at h
      exact List.mem_cons_of_mem _ (ih h)

theorem get?_eq_none_iff {key : κ} {entries : List (κ × α)} :
    get? key entries = none ↔ key ∉ keys entries := by
  induction entries with
  | nil => simp [get?, keys]
  | cons e entries ih =>
    obtain ⟨k, b⟩ := e
    by_cases hk : k = key
    · simp [get?, keys, hk]
    · rw [get?, if_neg hk, ih]
      simp [keys, Ne.symm hk]

theorem exists_get?_of_mem {key : κ} {entries : List (κ × α)} (h : key ∈ keys entries) :
    ∃ a, get? key entries = some a := by
  cases hg : get? key entries with
  | none => exact absurd h (get?_eq_none_iff.1 hg)
  | some a => exact ⟨a, rfl⟩

theorem get?_of_mem {key : κ} {a : α} {entries : List (κ × α)} (hn : (keys entries).Nodup)
    (h : (key, a) ∈ entries) : get? key entries = some a := by
  induction entries with
  | nil => simp at h
  | cons e entries ih =>
    obtain ⟨k, b⟩ := e
    have hc := List.nodup_cons.1 hn
    rcases List.mem_cons.1 h with h | h
    · obtain ⟨rfl, rfl⟩ := Prod.mk.inj h
      simp [get?]
    · have hm : key ∈ keys entries := List.mem_map_of_mem (f := Prod.fst) h
      have hk : k ≠ key := fun he => hc.1 (he ▸ hm)
      rw [get?, if_neg hk]
      exact ih hc.2 h

theorem get?_map {β : Type} (f : α → β) (key : κ) (entries : List (κ × α)) :
    get? key (entries.map fun e => (e.1, f e.2)) = (get? key entries).map f := by
  induction entries with
  | nil => rfl
  | cons e entries ih =>
    obtain ⟨k, a⟩ := e
    by_cases hk : k = key
    · simp [get?, hk]
    · simp [get?, hk, ih]

theorem get?_filter (p : κ → Bool) (key : κ) (entries : List (κ × α)) :
    get? key (entries.filter fun e => p e.1) = if p key then get? key entries else none := by
  induction entries with
  | nil => simp [get?]
  | cons e entries ih =>
    obtain ⟨k, a⟩ := e
    by_cases hk : k = key
    · subst hk
      by_cases hp : p k <;> simp [hp, get?, ih]
    · by_cases hp : p k <;> simp [hp, get?, hk, ih]

theorem get?_of_perm {key : κ} {l₁ l₂ : List (κ × α)} (hp : l₁.Perm l₂)
    (hn : (keys l₂).Nodup) : get? key l₁ = get? key l₂ := by
  have hn₁ : (keys l₁).Nodup := ((hp.map Prod.fst).nodup_iff).2 hn
  cases h : get? key l₂ with
  | none =>
    rw [get?_eq_none_iff] at h ⊢
    exact fun hm => h ((hp.map Prod.fst).subset hm)
  | some a => exact get?_of_mem hn₁ (hp.symm.subset (mem_of_get? h))

/-! ## Putting pairs one after the other -/

theorem put_of_not_mem {key : κ} {a : α} {entries : List (κ × α)} (h : key ∉ keys entries) :
    put key a entries = entries ++ [(key, a)] := by
  induction entries with
  | nil => rfl
  | cons e entries ih =>
    obtain ⟨k, b⟩ := e
    simp only [keys, List.map_cons, List.mem_cons, not_or] at h
    rw [put, if_neg (Ne.symm h.1), ih h.2]
    rfl

theorem put_put (key : κ) (a b : α) (entries : List (κ × α)) :
    put key b (put key a entries) = put key b entries := by
  induction entries with
  | nil => simp [put]
  | cons e entries ih =>
    obtain ⟨k, c⟩ := e
    by_cases hk : k = key
    · simp [put, hk]
    · simp [put, hk, ih]

theorem mem_of_mem_put {key : κ} {a : α} {e : κ × α} {entries : List (κ × α)}
    (h : e ∈ put key a entries) : e = (key, a) ∨ e ∈ entries := by
  induction entries with
  | nil => simpa [put] using h
  | cons hd entries ih =>
    obtain ⟨k, b⟩ := hd
    rw [put] at h
    split at h
    · next hk =>
      rcases List.mem_cons.1 h with h | h
      · exact .inl (hk ▸ h)
      · exact .inr (List.mem_cons_of_mem _ h)
    · rcases List.mem_cons.1 h with h | h
      · exact .inr (h ▸ List.mem_cons_self)
      · exact (ih h).imp id (List.mem_cons_of_mem _)

theorem ofList_append_singleton (pairs : List (κ × α)) (key : κ) (a : α) :
    ofList (pairs ++ [(key, a)]) = put key a (ofList pairs) := by
  simp [ofList]

theorem mem_of_mem_ofList {e : κ × α} {pairs : List (κ × α)} (h : e ∈ ofList pairs) :
    e ∈ pairs := by
  induction pairs using List.reverseRec with
  | nil => exact h
  | append_singleton pairs p ih =>
    rw [ofList_append_singleton] at h
    rcases mem_of_mem_put h with h | h
    · exact List.mem_append_right _ (h ▸ List.mem_singleton_self _)
    · exact List.mem_append_left _ (ih h)

theorem mem_keys_ofList {key : κ} {pairs : List (κ × α)} :
    key ∈ keys (ofList pairs) ↔ key ∈ keys pairs := by
  induction pairs using List.reverseRec with
  | nil => rfl
  | append_singleton pairs p ih =>
    rw [ofList_append_singleton, mem_keys_put, ih]
    simp [keys, or_comm]

theorem nodup_keys_ofList (pairs : List (κ × α)) : (keys (ofList pairs)).Nodup := by
  induction pairs using List.reverseRec with
  | nil => exact List.nodup_nil
  | append_singleton pairs p ih =>
    rw [ofList_append_singleton]
    exact nodup_keys_put ih

theorem ofList_eq_self {pairs : List (κ × α)} (h : (keys pairs).Nodup) : ofList pairs = pairs := by
  induction pairs using List.reverseRec with
  | nil => rfl
  | append_singleton pairs p ih =>
    have ha : (keys pairs ++ [p.1]).Nodup := by simpa [keys] using h
    rw [ofList_append_singleton, ih (List.Nodup.of_append_left ha)]
    exact put_of_not_mem fun hm => (List.disjoint_of_nodup_append ha) hm (List.mem_singleton_self _)

theorem ofList_ofList (pairs : List (κ × α)) : ofList (ofList pairs) = ofList pairs :=
  ofList_eq_self (nodup_keys_ofList pairs)

/-! ## The order of keys -/

theorem keys_put (key : κ) (a : α) (entries : List (κ × α)) :
    keys (put key a entries)
      = if key ∈ keys entries then keys entries else keys entries ++ [key] := by
  induction entries with
  | nil => rfl
  | cons e entries ih =>
    obtain ⟨k, b⟩ := e
    by_cases hk : k = key
    · simp [put, keys, hk]
    · have ih' : (put key a entries).map Prod.fst = _ := ih
      by_cases hm : key ∈ entries.map Prod.fst <;> simp [put, keys, hk, Ne.symm hk, ih', hm]

theorem keys_ofList (pairs : List (κ × α)) : keys (ofList pairs) = (keys pairs).eraseDups := by
  induction pairs using List.reverseRec with
  | nil => rfl
  | append_singleton pairs p ih =>
    have hk : keys (pairs ++ [p]) = keys pairs ++ [p.1] := List.map_append
    rw [ofList_append_singleton, keys_put, ih, hk, List.eraseDups_append]
    by_cases hm : p.1 ∈ keys pairs <;> simp [hm, List.removeAll, List.eraseDups_cons]

/-- Of some members of a list, each kept once, the earlier one is first met earlier. -/
theorem pairwise_eraseDups_filter {p : κ → Bool} {l : List κ} :
    ((l.filter p).eraseDups).Pairwise fun a b => l.idxOf a < l.idxOf b := by
  induction l generalizing p with
  | nil => exact .nil
  | cons x l ih =>
    have hne : ∀ {q : κ → Bool} {y : κ}, y ∈ ((l.filter q).eraseDups) → q x = false →
        (x :: l).idxOf y = l.idxOf y + 1 := by
      intro q y hy hq
      have hqy := (List.mem_filter.1 (List.mem_eraseDups.1 hy)).2
      have hxy : x ≠ y := fun he => by simp [← he, hq] at hqy
      rw [List.idxOf_cons_ne _ hxy]
    have hrest : ∀ {q : κ → Bool}, q x = false →
        ((l.filter q).eraseDups).Pairwise fun a b => (x :: l).idxOf a < (x :: l).idxOf b := by
      intro q hq
      refine ih.imp_of_mem fun ha hb hlt => ?_
      rw [hne ha hq, hne hb hq]
      exact Nat.succ_lt_succ hlt
    cases hx : p x with
    | false =>
      rw [List.filter_cons_of_neg (by simp [hx])]
      exact hrest hx
    | true =>
      rw [List.filter_cons_of_pos hx, List.eraseDups_cons, List.filter_filter, List.pairwise_cons]
      refine ⟨fun y hy => ?_, hrest (by simp)⟩
      rw [hne hy (by simp), List.idxOf_cons_self]
      exact Nat.succ_pos _

end SchemaLang.Entries
