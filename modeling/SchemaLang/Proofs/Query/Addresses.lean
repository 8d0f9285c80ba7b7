import Mathlib.Data.List.Nodup
import SchemaLang.Proofs.Query.Placing

/-!
# What a query is read as

A path goes from a value to what stands inside it.  The way of a leaf is followed through a value
as its containers are found: a segment is an index in an array and a key in an object, so ways that
are written apart may lead to one place.

Putting a leaf makes one new path that ends in a text, the address of the leaf, and leaves all
texts and all addresses that there have been.  By induction on the leaves, a query is read as the
value that has its leaves at their addresses, each at one of its own, and nothing else.

* `place_adds`: what one leaf adds.
* `Holds.placeAll`: what leaves make that are put one after the other.
* `decode_holds`: what a query is read as.
-/

namespace SchemaLang

namespace Value

/-- A step from a container to one of the values in it. -/
inductive Step
  | item (index : Nat)
  | member (key : Key)
  deriving DecidableEq

def child? : Step → Value → Option Value
  | .item i, .array items => items[i]?
  | .member k, .object entries => Entries.get? k entries
  | _, _ => none

/-- What stands at the end of a path. -/
def lookup? : List Step → Value → Option Value
  | [], v => some v
  | step :: path, v => (child? step v).bind (lookup? path)

/-- A text stands at the end of a path. -/
def HasText (v : Value) (path : List Step) (s : String) : Prop := v.lookup? path = some (.string s)

/-- A text, or a container that has something in it and whose keys are distinct texts. -/
def TextsOnly : Value → Prop
  | .string _ => True
  | .array items => items ≠ []
  | .object entries => entries ≠ [] ∧ (Entries.keys entries).Nodup ∧ .null ∉ Entries.keys entries
  | _ => False

variable {v : Value} {step : Step} {path : List Step} {s : String}

theorem hasText_nil : v.HasText [] s ↔ v = .string s := Option.some_inj

theorem not_hasText_null : ¬HasText .null path s := by
  intro h
  cases path <;> simp [HasText, lookup?, child?] at h

/-- There is no text where nothing stands, and none in null. -/
theorem hasText_cons :
    v.HasText (step :: path) s ↔ ((child? step v).getD .null).HasText path s := by
  rw [HasText, lookup?]
  cases child? step v with
  | none => simpa using not_hasText_null
  | some w => rfl

end Value

namespace Query

open Value (Step TextsOnly child? hasText_nil not_hasText_null hasText_cons)

/-! ## Addresses -/

/-- The step that a segment stands for in a container. -/
def step? (segment : String) : Value → Option Step
  | .array items => (index? segment items.length).map .item
  | .object _ => some (.member (.text segment))
  | _ => none

/-- The path that a way leads along in a value. -/
def address? : List String → Value → Option (List Step)
  | [], _ => some []
  | segment :: way, v =>
    (step? segment v).bind fun step =>
      (child? step v).bind fun w => (address? way w).map (step :: ·)

variable {segment text : String} {way : List String} {path : List Step} {u v w : Value}

theorem address?_cons : address? (segment :: way) v = some path ↔ ∃ step w rest,
    step? segment v = some step ∧ child? step v = some w ∧ address? way w = some rest
      ∧ path = step :: rest := by
  simp only [address?, Option.bind_eq_some_iff, Option.map_eq_some_iff]
  constructor
  · rintro ⟨step, hs, w, hw, rest, hr, rfl⟩
    exact ⟨step, w, rest, hs, hw, hr, rfl⟩
  · rintro ⟨step, w, rest, hs, hw, hr, rfl⟩
    exact ⟨step, hs, w, hw, rest, hr, rfl⟩

theorem le_of_index? {length i : Nat} (h : index? segment length = some i) : i ≤ length := by
  obtain ⟨n, -, hn⟩ := Option.bind_eq_some_iff.1 h
  split at hn
  · next hb => exact Option.some.inj hn ▸ hb.2
  · simp at hn

/-- An index of an array is an index of a longer one. -/
theorem index?_mono {length length' i : Nat} (h : index? segment length = some i)
    (hl : length ≤ length') : index? segment length' = some i := by
  obtain ⟨n, hn, hi⟩ := Option.bind_eq_some_iff.1 h
  rw [index?, hn, Option.bind_some]
  split at hi
  · next hb => rw [if_pos ⟨hb.1, hb.2.trans hl⟩, hi]
  · simp at hi

/-! ## Putting a value one step inside -/

/-- `w` has `u` at the step that a segment stands for, and is otherwise as `v`. -/
structure Replaced (segment : String) (step : Step) (u v w : Value) : Prop where
  before : v.isContainer = true
  after : w.isContainer = true
  place : step? segment w = some step
  kept : ∀ segment' step', step? segment' v = some step' → step? segment' w = some step'
  child : ∀ step', child? step' w = if step' = step then some u else child? step' v

/-- The items after one of them, or the next one, has been put. -/
theorem getElem?_put {items : List Value} {i : Nat} (h : i ≤ items.length) (u : Value) (j : Nat) :
    (items.take i ++ u :: items.drop (i + 1))[j]? = if j = i then some u else items[j]? := by
  have ht : (items.take i).length = i := List.length_take_of_le h
  rcases Nat.lt_trichotomy j i with hj | rfl | hj
  · rw [List.getElem?_append_left (by omega), List.getElem?_take_of_lt hj, if_neg (by omega)]
  · rw [List.getElem?_append_right (by omega), ht, Nat.sub_self, if_pos rfl]
    rfl
  · obtain ⟨k, rfl⟩ := Nat.exists_eq_add_of_lt hj
    rw [List.getElem?_append_right (by omega), ht, if_neg (by omega),
      show i + k + 1 - i = k + 1 by omega, List.getElem?_cons_succ, List.getElem?_drop]
    congr 1
    omega

theorem replaced_item {items : List Value} {i : Nat} (h : index? segment items.length = some i)
    (u : Value) : Replaced segment (.item i) u (.array items)
      (.array (items.take i ++ u :: items.drop (i + 1))) := by
  have hlen : items.length ≤ (items.take i ++ u :: items.drop (i + 1)).length := by
    simp only [List.length_append, List.length_take, List.length_cons, List.length_drop]
    omega
  refine ⟨rfl, rfl, ?_, fun segment' step' hs => ?_, fun step' => ?_⟩
  · rw [step?, index?_mono h hlen]
    rfl
  · obtain ⟨j, hj, rfl⟩ := Option.map_eq_some_iff.1 hs
    rw [step?, index?_mono hj hlen]
    rfl
  · cases step' with
    | item j => simpa [child?] using getElem?_put (le_of_index? h) u j
    | member k => rfl

theorem replaced_member (entries : List (Key × Value)) (segment : String) (u : Value) :
    Replaced segment (.member (.text segment)) u (.object entries)
      (.object (Entries.put (.text segment) u entries)) := by
  refine ⟨rfl, rfl, rfl, fun _ _ hs => hs, fun step' => ?_⟩
  cases step' with
  | item j => rfl
  | member k => simpa [child?, eq_comm] using Entries.get?_put (.text segment) k u entries

/-- Everything in the container that a way goes into has been put there. -/
theorem child?_containerFor (hv : v ≠ .null → v.Throughout TextsOnly) {step : Step}
    (h : child? step (containerFor segment v) = some w) : w.Throughout TextsOnly := by
  cases v with
  | null =>
    rw [containerFor] at h
    split at h <;> cases step <;> simp [child?, Entries.get?] at h
  | array items =>
    cases step with
    | item i => exact (hv (by simp)).item w (List.mem_of_getElem? h)
    | member k => simp [containerFor, child?] at h
  | object entries =>
    cases step with
    | item i => simp [containerFor, child?] at h
    | member k => exact (hv (by simp)).entry _ (Entries.mem_of_get? h)
  | _ => simp [containerFor, child?] at h

theorem keys_containerFor (hv : v ≠ .null → v.Throughout TextsOnly)
    {entries : List (Key × Value)} (h : containerFor segment v = .object entries) :
    (Entries.keys entries).Nodup ∧ .null ∉ Entries.keys entries := by
  cases v with
  | null =>
    rw [containerFor] at h
    split at h
    · simp at h
    · cases h
      simp [Entries.keys]
  | object entries' =>
    cases h
    exact (hv (by simp)).self.2
  | _ => simp [containerFor] at h

theorem place_containerFor :
    place text (segment :: way) (containerFor segment v) = place text (segment :: way) v := by
  rw [place, place, containerFor_containerFor]

theorem containerFor_ne_null : containerFor segment v ≠ .null := by
  cases v with
  | null =>
    rw [containerFor]
    split <;> simp
  | _ => simp [containerFor]

theorem exists_of_map_eq_ok {ε α β : Type} {x : Except ε α} {f : α → β} {b : β}
    (h : x.map f = .ok b) : ∃ a, x = .ok a ∧ f a = b := by
  cases x with
  | error e => simp [Except.map] at h
  | ok a => exact ⟨a, rfl, Except.ok.inj h⟩

/-- A way puts its text one step inside, into what stands there or into nothing. -/
theorem replaced_of_place (hv : v ≠ .null → v.Throughout TextsOnly)
    (h : place text (segment :: way) v = .ok w) : ∃ step u,
      place text way ((child? step (containerFor segment v)).getD .null) = .ok u
        ∧ Replaced segment step u (containerFor segment v) w ∧ TextsOnly w := by
  rw [← place_containerFor] at h
  cases hc : containerFor segment v with
  | array items =>
    rw [hc] at h
    cases hi : index? segment items.length with
    | none => simp [place, containerFor, hi] at h
    | some i =>
      rw [focus_of_index hi] at h
      obtain ⟨u, hu, rfl⟩ := exists_of_map_eq_ok h
      exact ⟨.item i, u, by simpa [child?] using hu, replaced_item hi u, by simp [TextsOnly]⟩
  | object entries =>
    rw [hc, focus_object] at h
    obtain ⟨u, hu, rfl⟩ := exists_of_map_eq_ok h
    obtain ⟨hn, hk⟩ := keys_containerFor hv hc
    have hself : (.text segment, u) ∈ Entries.put (.text segment) u entries :=
      Entries.mem_of_get? (by rw [Entries.get?_put, if_pos rfl])
    refine ⟨.member (.text segment), u, hu, replaced_member entries segment u,
      List.ne_nil_of_mem hself, Entries.nodup_keys_put hn, ?_⟩
    rw [Entries.mem_keys_put]
    simpa using hk
  | null => exact absurd hc containerFor_ne_null
  | _ =>
    rw [hc] at h
    simp [place, containerFor] at h

/-! ## Putting one leaf -/

/-- A text has been put at the end of a way, where there was none. -/
structure Adds (way : List String) (text : String) (path : List Step) (v w : Value) : Prop where
  textsOnly : w.Throughout TextsOnly
  address : address? way w = some path
  hasText : ∀ p s, w.HasText p s ↔ (p = path ∧ s = text) ∨ v.HasText p s
  free : ∀ s, ¬v.HasText path s
  kept : ∀ way' p, address? way' v = some p → address? way' w = some p

theorem adds_nil (text : String) : Adds [] text [] .null (.string text) where
  textsOnly := .scalar rfl trivial
  address := rfl
  hasText p s := by
    rw [or_iff_left not_hasText_null]
    cases p with
    | nil => simp [hasText_nil, eq_comm]
    | cons _ _ => simp [Value.HasText, Value.lookup?, child?]
  free _ := not_hasText_null
  kept way' p h := by
    cases way' with
    | nil => exact h
    | cons _ _ => simp [address?, step?] at h

theorem Replaced.adds {step : Step} {old : Value} (hr : Replaced segment step u v w)
    (hw : w.Throughout TextsOnly) (hold : (child? step v).getD .null = old)
    (h : Adds way text path old u) : Adds (segment :: way) text (step :: path) v w := by
  have hnew : child? step w = some u := by rw [hr.child, if_pos rfl]
  have hother : ∀ step' p s, step' ≠ step →
      (w.HasText (step' :: p) s ↔ v.HasText (step' :: p) s) := by
    intro step' p s hne
    rw [hasText_cons, hasText_cons, hr.child, if_neg hne]
  constructor
  · exact hw
  · exact address?_cons.2 ⟨step, u, path, hr.place, hnew, h.address, rfl⟩
  · intro p s
    cases p with
    | nil =>
      have hbefore : ¬v.HasText [] s := fun hs => by
        simpa [hasText_nil.1 hs, Value.isContainer] using hr.before
      have hafter : ¬w.HasText [] s := fun hs => by
        simpa [hasText_nil.1 hs, Value.isContainer] using hr.after
      simp [hbefore, hafter]
    | cons step' p =>
      by_cases hs : step' = step
      · subst hs
        rw [hasText_cons, hasText_cons, hnew, hold, Option.getD_some, h.hasText,
          List.cons_inj_right]
      · simp [hother step' p s hs, hs]
  · intro s hs
    rw [hasText_cons, hold] at hs
    exact h.free s hs
  · intro way' p hp
    cases way' with
    | nil => exact hp
    | cons segment' way' =>
      obtain ⟨step', x, rest, hs, hx, hrest, rfl⟩ := address?_cons.1 hp
      refine address?_cons.2 ⟨step', ?_⟩
      by_cases he : step' = step
      · subst he
        rw [hx, Option.getD_some] at hold
        exact ⟨u, rest, hr.kept _ _ hs, hnew, h.kept _ _ (hold ▸ hrest), rfl⟩
      · exact ⟨x, rest, hr.kept _ _ hs, by rw [hr.child, if_neg he, hx], hrest, rfl⟩

/-- An empty container that is made on the way has nothing in it. -/
theorem Adds.of_containerFor (h : Adds way text path (containerFor segment v) w) :
    Adds way text path v w := by
  cases v with
  | null =>
    have hc : ∀ step, child? step (containerFor segment .null) = none := by
      intro step
      rw [containerFor]
      split <;> cases step <;> rfl
    have hn : ∀ p s, ¬(containerFor segment .null).HasText p s := by
      intro p s hs
      cases p with
      | nil =>
        rw [containerFor] at hs
        split at hs <;> simp [hasText_nil] at hs
      | cons step p =>
        rw [hasText_cons, hc] at hs
        exact not_hasText_null hs
    refine ⟨h.textsOnly, h.address, fun p s => ?_, fun s => not_hasText_null, fun way' p hp => ?_⟩
    · rw [h.hasText, or_iff_left (hn p s), or_iff_left not_hasText_null]
    · cases way' with
      | nil => exact hp
      | cons _ _ => simp [address?, step?] at hp
  | _ => exact h

theorem throughout_textsOnly (h : TextsOnly v)
    (hc : ∀ step w, child? step v = some w → w.Throughout TextsOnly) :
    v.Throughout TextsOnly := by
  cases v with
  | string s => exact .scalar rfl h
  | array items =>
    refine .array h fun a ha => ?_
    obtain ⟨i, hi⟩ := List.mem_iff_getElem?.1 ha
    exact hc (.item i) a hi
  | object entries =>
    refine .object h fun e he => ?_
    exact hc (.member e.1) e.2 (Entries.get?_of_mem h.2.1 he)
  | _ => exact h.elim

/-- A leaf is put at a path of its own. -/
theorem place_adds (hv : v ≠ .null → v.Throughout TextsOnly) (h : place text way v = .ok w) :
    ∃ path, Adds way text path v w := by
  induction way generalizing v w with
  | nil =>
    cases v with
    | null =>
      cases h
      exact ⟨[], adds_nil text⟩
    | _ => simp [place] at h
  | cons segment way ih =>
    obtain ⟨step, u, hu, hr, ht⟩ := replaced_of_place hv h
    have hold : ((child? step (containerFor segment v)).getD .null) ≠ .null →
        ((child? step (containerFor segment v)).getD .null).Throughout TextsOnly := by
      cases hc : child? step (containerFor segment v) with
      | none => exact fun hn => absurd rfl hn
      | some x => exact fun _ => child?_containerFor hv hc
    obtain ⟨path, ha⟩ := ih hold hu
    refine ⟨step :: path, (hr.adds ?_ rfl ha).of_containerFor⟩
    refine throughout_textsOnly ht fun step' x hx => ?_
    rw [hr.child] at hx
    split at hx
    · exact Option.some.inj hx ▸ ha.textsOnly
    · exact child?_containerFor hv hx

/-! ## Putting leaves one after the other -/

/-- A value that has the leaves of a list, each at an address of its own, and nothing else. -/
structure Holds (ls : List Leaf) (v : Value) : Prop where
  distinct : (ls.map fun l => address? l.way v).Nodup
  found : ∀ l ∈ ls, ∃ path, address? l.way v = some path ∧ v.HasText path l.text
  only : ∀ path s, v.HasText path s → ∃ l ∈ ls, address? l.way v = some path ∧ l.text = s

theorem holds_nil : Holds [] .null :=
  ⟨List.nodup_nil, by simp, fun _ _ h => absurd h not_hasText_null⟩

theorem Holds.adds {ls : List Leaf} {l : Leaf} (h : Holds ls v)
    (ha : Adds l.way l.text path v w) : Holds (ls ++ [l]) w := by
  have hmap : (ls.map fun l => address? l.way w) = ls.map fun l => address? l.way v := by
    refine List.map_congr_left fun l hl => ?_
    obtain ⟨p, hp, -⟩ := h.found l hl
    rw [hp, ha.kept _ _ hp]
  refine ⟨?_, fun l' hl' => ?_, fun p s hp => ?_⟩
  · rw [List.map_append, hmap, List.map_singleton, ha.address, List.nodup_append]
    refine ⟨h.distinct, List.nodup_singleton _, ?_⟩
    rintro _ hm _ hs rfl
    obtain ⟨l', hl', he⟩ := List.mem_map.1 hm
    obtain ⟨p, hp, ht⟩ := h.found l' hl'
    rw [List.mem_singleton.1 hs, hp, Option.some_inj] at he
    exact ha.free _ (he ▸ ht)
  · rcases List.mem_append.1 hl' with hl' | hl'
    · obtain ⟨p, hp, ht⟩ := h.found l' hl'
      exact ⟨p, ha.kept _ _ hp, (ha.hasText _ _).2 (.inr ht)⟩
    · rw [List.mem_singleton.1 hl']
      exact ⟨path, ha.address, (ha.hasText _ _).2 (.inl ⟨rfl, rfl⟩)⟩
  · rcases (ha.hasText _ _).1 hp with ⟨rfl, rfl⟩ | hp
    · exact ⟨l, by simp, ha.address, rfl⟩
    · obtain ⟨l', hl', hp, hs⟩ := h.only p s hp
      exact ⟨l', List.mem_append_left _ hl', ha.kept _ _ hp, hs⟩

/-- Leaves make a value of texts that has them beside what there has been. -/
theorem Holds.placeAll {seen ls : List Leaf} (h : Holds seen v)
    (hv : v ≠ .null → v.Throughout TextsOnly) (hp : Query.placeAll v ls = .ok w) :
    Holds (seen ++ ls) w ∧ (w ≠ .null → w.Throughout TextsOnly)
      ∧ ∀ path s, v.HasText path s → w.HasText path s := by
  induction ls generalizing v seen with
  | nil =>
    cases hp
    rw [List.append_nil]
    exact ⟨h, hv, fun _ _ => id⟩
  | cons l ls ih =>
    change Except.bind (place l.text l.way v) _ = _ at hp
    cases hu : place l.text l.way v with
    | error e => simp [hu, Except.bind] at hp
    | ok u =>
      rw [hu] at hp
      obtain ⟨path, ha⟩ := place_adds hv hu
      obtain ⟨hw, ht, hk⟩ := ih (h.adds ha) (fun _ => ha.textsOnly) hp
      rw [List.append_assoc, List.singleton_append] at hw
      exact ⟨hw, ht, fun p s hs => hk p s ((ha.hasText p s).2 (.inr hs))⟩

/-! ## Reading a query -/

/-- The leaf that a pair writes, if it is not empty and has exactly one equals sign. -/
def leaf? (pair : List Char) : Option Leaf :=
  match Pair.ofChars pair with
  | .leaf key text => some ⟨Query.way key, unquote text⟩
  | _ => none

def leavesOf (pairs : List (List Char)) : List Leaf := pairs.filterMap leaf?

/-- The leaves that a query writes. -/
def queryLeaves (query : String) : List Leaf := leavesOf (Text.splitAt '&' query.toList)

theorem putAll_cons_eq_ok_iff {pair : List Char} {rest : List (List Char)} :
    putAll v (pair :: rest) = .ok w
      ↔ (Pair.ofChars pair = .empty ∧ putAll v rest = .ok w)
        ∨ (∃ key text u, Pair.ofChars pair = .leaf key text
          ∧ place (unquote text) (Query.way key) v = .ok u ∧ putAll u rest = .ok w)
        ∨ ∃ p, Pair.ofChars pair = .other p ∧ rest = [] ∧ v = w := by
  rw [putAll]
  cases Pair.ofChars pair with
  | empty => simp
  | leaf key text =>
    change Except.bind (putLeaf v key text) _ = _ ↔ _
    rw [putLeaf]
    cases hp : place (unquote text) (Query.way key) v with
    | error e => simp [hp, Except.mapError, Except.bind]
    | ok u => simp [hp, Except.mapError, Except.bind]
  | other p =>
    cases rest with
    | nil => simp
    | cons _ _ => simp

theorem putAll_append {before after : List (List Char)}
    (h : putAll v (before ++ after) = .ok w) :
    ∃ u, putAll v before = .ok u ∧ putAll u after = .ok w := by
  induction before generalizing v with
  | nil => exact ⟨v, rfl, h⟩
  | cons pair rest ih =>
    rw [List.cons_append, putAll_cons_eq_ok_iff] at h
    simp only [putAll_cons_eq_ok_iff]
    rcases h with ⟨hp, h⟩ | ⟨key, text, u, hp, hu, h⟩ | ⟨p, hp, hn, rfl⟩
    · obtain ⟨x, hx, ha⟩ := ih h
      exact ⟨x, .inl ⟨hp, hx⟩, ha⟩
    · obtain ⟨x, hx, ha⟩ := ih h
      exact ⟨x, .inr (.inl ⟨key, text, u, hp, hu, hx⟩), ha⟩
    · obtain ⟨rfl, rfl⟩ := List.append_eq_nil_iff.1 hn
      exact ⟨v, .inr (.inr ⟨p, hp, rfl, rfl⟩), rfl⟩

theorem placeAll_of_putAll {pairs : List (List Char)} (h : putAll v pairs = .ok w) :
    Query.placeAll v (leavesOf pairs) = .ok w := by
  induction pairs generalizing v with
  | nil => exact congrArg Except.ok (Except.ok.inj h)
  | cons pair rest ih =>
    rcases putAll_cons_eq_ok_iff.1 h with ⟨hp, h⟩ | ⟨key, text, u, hp, hu, h⟩ | ⟨p, hp, rfl, rfl⟩
    · rw [leavesOf, List.filterMap_cons_none (by rw [leaf?, hp])]
      exact ih h
    · rw [leavesOf, List.filterMap_cons_some (by rw [leaf?, hp]), Query.placeAll, hu]
      exact ih h
    · rw [leavesOf, List.filterMap_cons_none (by rw [leaf?, hp])]
      rfl

theorem decode_eq_ok {query : String} (h : decode query = .ok v) (hne : v ≠ .object []) :
    putAll .null (Text.splitAt '&' query.toList) = .ok v ∧ v ≠ .null := by
  obtain ⟨u, hu, rfl⟩ := exists_of_map_eq_ok h
  split at hne
  · exact absurd rfl hne
  · next hn =>
    rw [if_neg hn]
    exact ⟨hu, fun h0 => hn (by rw [h0]; rfl)⟩

/-- A query is read as the texts of its pairs at the addresses of their keys.  Each pair has an
address of its own, no text stands anywhere else, and what the first pairs have put is kept by the
others. -/
theorem decode_holds {query : String} {v : Value} (h : decode query = .ok v)
    (hne : v ≠ .object []) :
    v.Throughout TextsOnly ∧ Holds (queryLeaves query) v
      ∧ ∀ before after, Text.splitAt '&' query.toList = before ++ after →
        ∃ u, putAll .null before = .ok u ∧ putAll u after = .ok v ∧ Holds (leavesOf before) u
          ∧ ∀ path s, u.HasText path s → v.HasText path s := by
  obtain ⟨hp, hn⟩ := decode_eq_ok h hne
  obtain ⟨hh, ht, -⟩ := holds_nil.placeAll (fun h => absurd rfl h) (placeAll_of_putAll hp)
  refine ⟨ht hn, hh, fun before after he => ?_⟩
  rw [he] at hp
  obtain ⟨u, hu, hv⟩ := putAll_append hp
  obtain ⟨hb, htu, -⟩ := holds_nil.placeAll (fun h => absurd rfl h) (placeAll_of_putAll hu)
  obtain ⟨-, -, hk⟩ := hb.placeAll htu (placeAll_of_putAll hv)
  exact ⟨u, hu, hv, hb, hk⟩

/-- An empty pair, an index with a sign, an empty text and an anchor. -/
def mixedQuery : String := "a.0=x&&a.%2B1=y&b=&c"

def mixedValue : Value :=
  .object [(.text "a", .array [.string "x", .string "y"]), (.text "b", .string "")]

theorem decode_holds_mixed : decode mixedQuery = .ok mixedValue ∧ mixedValue ≠ .object []
    ∧ mixedValue.Throughout TextsOnly ∧ Holds (queryLeaves mixedQuery) mixedValue
    ∧ ∀ before after, Text.splitAt '&' mixedQuery.toList = before ++ after →
      ∃ u, putAll .null before = .ok u ∧ putAll u after = .ok mixedValue
        ∧ Holds (leavesOf before) u ∧ ∀ path s, u.HasText path s → mixedValue.HasText path s :=
  ⟨rfl, by simp [mixedValue], decode_holds rfl (by simp [mixedValue])⟩

end Query

end SchemaLang
