import SchemaLang.Proofs.Query.Inverse

/-!
# Queries without arrays do not depend on the order of their pairs

Where no segment is `0`, every container that is made is an object, and the way of a pair leads
along the keys that it names.  A text can be put at the end of a way exactly if no text stands on
the way or further on.  This is the same for both orders of two pairs: the one that comes later
meets the one that has come first.  So all pairs can be put if no way goes on from another, and the
texts at their ways, which are the same in every order, make up the value.

* `exists_place_iff`: where a text can be put.
* `exists_placeAll_iff`: which leaves can be put one after the other.
* `rearranged_of_hasText`: a value is known by its texts, up to the order of its members.
* `decode_perm`: queries without arrays.
-/

namespace SchemaLang

namespace Query

open Value (Step TextsOnly Rearranged child? hasText_nil hasText_cons not_hasText_null)

/-! ## Ways through objects -/

/-- The path that a way leads along through objects. -/
def keyPath (way : List String) : List Step := way.map fun segment => .member (.text segment)

/-- Neither of two ways is the other one or goes on from it. -/
def Apart (a b : List String) : Prop := ¬a <+: b ∧ ¬b <+: a

/-- A text, or an object that has something in it and whose keys are distinct texts. -/
def Keyed (v : Value) : Prop := TextsOnly v ∧ ∀ items, v ≠ .array items

theorem keyPath_injective {a b : List String} (h : keyPath a = keyPath b) : a = b :=
  List.map_injective_iff.2 (fun _ _ he => Key.text.inj (Step.member.inj he)) h

theorem apart_comm {a b : List String} : Apart a b ↔ Apart b a := and_comm

theorem not_apart_nil (way : List String) : ¬Apart [] way := fun h => h.1 List.nil_prefix

theorem apart_cons {s t : String} {a b : List String} :
    Apart (s :: a) (t :: b) ↔ (s = t → Apart a b) := by
  simp only [Apart, List.cons_prefix_cons]
  by_cases h : s = t
  · simp [h]
  · simp [h, Ne.symm h]

variable {segment text : String} {way : List String} {v v' w : Value}

/-- There is a text in everything that is not null. -/
theorem exists_hasText (hv : v.Throughout Keyed) : ∃ way s, v.HasText (keyPath way) s := by
  induction v with
  | scalar v hs =>
    have ht := hv.self.1
    cases v with
    | string s => exact ⟨[], s, hasText_nil.2 rfl⟩
    | array items => simp [Value.isContainer] at hs
    | object entries => simp [Value.isContainer] at hs
    | _ => exact ht.elim
  | array items _ => exact absurd rfl (hv.self.2 items)
  | object entries ih =>
    obtain ⟨hne, hn, hnull⟩ := hv.self.1
    obtain ⟨⟨k, w⟩, he⟩ := List.exists_mem_of_ne_nil entries hne
    obtain ⟨way, s, hs⟩ := ih _ he (hv.entry _ he)
    cases k with
    | null => exact absurd (List.mem_map_of_mem (f := Prod.fst) he) hnull
    | text segment =>
      refine ⟨segment :: way, s, ?_⟩
      show (Value.object entries).HasText (.member (.text segment) :: keyPath way) s
      rw [hasText_cons, child?, Entries.get?_of_mem hn he]
      exact hs

/-- What a way goes into is an object, unless there is a text. -/
theorem exists_entries (hv : v ≠ .null → v.Throughout Keyed) (hs : segment ≠ "0") :
    (∃ s, v = .string s) ∨ ∃ entries, containerFor segment v = .object entries
      ∧ (∀ path s, v.HasText path s ↔ (Value.object entries).HasText path s)
      ∧ ∀ e ∈ entries, e.2.Throughout Keyed := by
  cases v with
  | null =>
    refine .inr ⟨[], by rw [containerFor, if_neg hs], fun path s => ?_, by simp⟩
    refine iff_of_false not_hasText_null ?_
    cases path with
    | nil => simp [hasText_nil]
    | cons step path =>
      rw [hasText_cons]
      cases step <;> exact not_hasText_null
  | string s => exact .inl ⟨s, rfl⟩
  | object entries => exact .inr ⟨entries, rfl, fun _ _ => .rfl, (hv (by simp)).entry⟩
  | array items => exact absurd rfl ((hv (by simp)).self.2 items)
  | _ => exact ((hv (by simp)).self.1).elim

theorem place_string (s : String) : place text way (.string s) = .error .taken := by
  cases way <;> rfl

/-- Putting goes on one step inside. -/
theorem place_cons {entries : List (Key × Value)} (h : containerFor segment v = .object entries) :
    place text (segment :: way) v
      = (place text way ((Entries.get? (.text segment) entries).getD .null)).map
        fun u => .object (Entries.put (.text segment) u entries) := by
  rw [← place_containerFor, h]
  exact focus_object entries segment text way

theorem keyed_child {entries : List (Key × Value)} (h : ∀ e ∈ entries, e.2.Throughout Keyed)
    (key : Key) : (Entries.get? key entries).getD .null ≠ .null →
      ((Entries.get? key entries).getD .null).Throughout Keyed := by
  cases hg : Entries.get? key entries with
  | none => exact fun hn => absurd rfl hn
  | some w => exact fun _ => h _ (Entries.mem_of_get? hg)

/-! ## Putting one text -/

/-- A text can be put where no text stands on the way or further on. -/
theorem exists_place_iff (text : String) (hv : v ≠ .null → v.Throughout Keyed)
    (hz : "0" ∉ way) :
    (∃ w, place text way v = .ok w) ↔ ∀ other s, v.HasText (keyPath other) s → Apart other way := by
  induction way generalizing v with
  | nil =>
    by_cases hn : v = .null
    · subst hn
      exact iff_of_true ⟨_, rfl⟩ fun _ _ h => absurd h not_hasText_null
    · have hplace : place text [] v = .error .taken := by
        cases v <;> first | rfl | exact absurd rfl hn
      obtain ⟨other, s, hs⟩ := exists_hasText (hv hn)
      refine iff_of_false (by simp [hplace]) fun h => ?_
      exact not_apart_nil other (apart_comm.1 (h other s hs))
  | cons segment way ih =>
    obtain ⟨hne, hz⟩ := not_or.1 (mt List.mem_cons.2 hz)
    rcases exists_entries hv (Ne.symm hne) with ⟨s, rfl⟩ | ⟨entries, hc, htexts, hkeyed⟩
    · refine iff_of_false (by simp [place_string]) fun h => ?_
      exact not_apart_nil _ (h [] s (hasText_nil.2 rfl))
    · have hchild := ih (keyed_child hkeyed (.text segment)) hz
      have hok : (∃ w, place text (segment :: way) v = .ok w)
          ↔ ∃ u, place text way ((Entries.get? (.text segment) entries).getD .null) = .ok u := by
        rw [place_cons hc]
        cases place text way ((Entries.get? (.text segment) entries).getD .null) <;>
          simp [Except.map]
      rw [hok, hchild]
      constructor
      · intro h other s hs
        rw [htexts] at hs
        cases other with
        | nil => simp [keyPath, hasText_nil] at hs
        | cons t other =>
          rw [apart_cons]
          rintro rfl
          exact h other s (hasText_cons.1 hs)
      · intro h other s hs
        have hcons := h (segment :: other) s ((htexts _ _).2 (hasText_cons.2 hs))
        exact apart_cons.1 hcons rfl

theorem keyed_of_place (hv : v ≠ .null → v.Throughout Keyed) (hz : "0" ∉ way)
    (h : place text way v = .ok w) : w.Throughout Keyed := by
  induction way generalizing v w with
  | nil =>
    cases v with
    | null =>
      cases h
      exact .scalar rfl ⟨trivial, by simp⟩
    | _ => simp [place] at h
  | cons segment way ih =>
    obtain ⟨hne, hz⟩ := not_or.1 (mt List.mem_cons.2 hz)
    have htexts : v ≠ .null → v.Throughout TextsOnly := fun hn => (hv hn).imp fun _ => And.left
    obtain ⟨_, hadds⟩ := place_adds htexts h
    rcases exists_entries hv (Ne.symm hne) with ⟨s, rfl⟩ | ⟨entries, hc, -, hkeyed⟩
    · simp [place_string] at h
    · rw [place_cons hc] at h
      obtain ⟨u, hu, rfl⟩ := exists_of_map_eq_ok h
      refine .object ⟨hadds.textsOnly.self, by simp⟩ fun e he => ?_
      rcases Entries.mem_of_mem_put he with rfl | he
      · exact ih (keyed_child hkeyed _) hz hu
      · exact hkeyed e he

theorem eq_keyPath_of_address? {path : List Step} (hv : v.Throughout Keyed)
    (h : address? way v = some path) : path = keyPath way := by
  induction way generalizing v path with
  | nil =>
    cases h
    rfl
  | cons segment way ih =>
    obtain ⟨step, w, rest, hs, hw, hr, rfl⟩ := address?_cons.1 h
    cases v with
    | object entries =>
      cases hs
      rw [ih (hv.entry _ (Entries.mem_of_get? hw)) hr]
      rfl
    | array items => exact absurd rfl (hv.self.2 items)
    | _ => simp [step?] at hs

/-- A text that is put stands at the end of its way, beside those that there have been. -/
theorem hasText_of_place (hv : v ≠ .null → v.Throughout Keyed) (hz : "0" ∉ way)
    (h : place text way v = .ok w) (path : List Step) (s : String) :
    w.HasText path s ↔ (path = keyPath way ∧ s = text) ∨ v.HasText path s := by
  obtain ⟨_, hadds⟩ := place_adds (fun hn => (hv hn).imp fun _ => And.left) h
  rw [hadds.hasText, eq_keyPath_of_address? (keyed_of_place hv hz h) hadds.address]

/-! ## Putting texts one after the other -/

/-- Leaves can be put if no way goes on from another, nor from one that leads to a text, nor the
other way round. -/
theorem exists_placeAll_iff {ls : List Leaf} (hv : v ≠ .null → v.Throughout Keyed)
    (hz : ∀ l ∈ ls, "0" ∉ l.way) :
    (∃ w, placeAll v ls = .ok w) ↔
      (∀ l ∈ ls, ∀ other s, v.HasText (keyPath other) s → Apart other l.way)
        ∧ ls.Pairwise fun a b => Apart a.way b.way := by
  induction ls generalizing v with
  | nil => simp [placeAll]
  | cons l ls ih =>
    obtain ⟨hl, hls⟩ := List.forall_mem_cons.1 hz
    have hplace := exists_place_iff l.text hv hl
    rw [List.forall_mem_cons, List.pairwise_cons, ← hplace]
    cases hp : place l.text l.way v with
    | error e => simp [placeAll, hp, Bind.bind, Except.bind]
    | ok u =>
      have htexts := hasText_of_place hv hl hp
      have hrest := ih (fun _ => keyed_of_place hv hl hp) hls
      show (∃ w, Except.bind (place l.text l.way v) (placeAll · ls) = .ok w) ↔ _
      rw [hp]
      show (∃ w, placeAll u ls = .ok w) ↔ _
      rw [hrest, ← and_assoc]
      refine and_congr_left fun _ => ?_
      constructor
      · intro h
        refine ⟨⟨⟨u, rfl⟩, fun a ha other s hs => ?_⟩, fun a ha => ?_⟩
        · exact h a ha other s ((htexts _ _).2 (.inr hs))
        · exact h a ha l.way l.text ((htexts _ _).2 (.inl ⟨rfl, rfl⟩))
      · rintro ⟨⟨-, hold⟩, hnew⟩ a ha other s hs
        rcases (htexts _ _).1 hs with ⟨he, -⟩ | hs
        · exact keyPath_injective he ▸ hnew a ha
        · exact hold a ha other s hs

/-- The texts of what leaves make, which do not tell in which order they have been put. -/
theorem texts_of_placeAll {ls : List Leaf} (hv : v ≠ .null → v.Throughout Keyed)
    (hz : ∀ l ∈ ls, "0" ∉ l.way) (h : placeAll v ls = .ok w) :
    (w ≠ .null → w.Throughout Keyed) ∧ ∀ path s, w.HasText path s
      ↔ (∃ l ∈ ls, path = keyPath l.way ∧ s = l.text) ∨ v.HasText path s := by
  induction ls generalizing v with
  | nil =>
    cases h
    exact ⟨hv, by simp⟩
  | cons l ls ih =>
    obtain ⟨hl, hls⟩ := List.forall_mem_cons.1 hz
    change Except.bind (place l.text l.way v) _ = _ at h
    cases hp : place l.text l.way v with
    | error e => simp [hp, Except.bind] at h
    | ok u =>
      rw [hp] at h
      obtain ⟨hw, htexts⟩ := ih (fun _ => keyed_of_place hv hl hp) hls h
      refine ⟨hw, fun path s => ?_⟩
      rw [htexts, hasText_of_place hv hl hp, List.exists_mem_cons_iff, ← or_assoc,
        or_comm (a := ∃ l ∈ ls, _)]

/-! ## Values with the same texts -/

/-- There is a text under every key of an object, and under no other. -/
theorem mem_keys_iff_hasText {entries : List (Key × Value)}
    (hv : (Value.object entries).Throughout Keyed) {key : Key} :
    key ∈ Entries.keys entries
      ↔ ∃ path s, (Value.object entries).HasText (.member key :: path) s := by
  constructor
  · intro hk
    obtain ⟨w, hw⟩ := Entries.exists_get?_of_mem hk
    obtain ⟨way, s, hs⟩ := exists_hasText (hv.entry _ (Entries.mem_of_get? hw))
    refine ⟨keyPath way, s, ?_⟩
    rw [hasText_cons, child?, hw]
    exact hs
  · rintro ⟨path, s, hs⟩
    by_contra hk
    rw [hasText_cons, child?, Entries.get?_eq_none_iff.2 hk] at hs
    exact not_hasText_null hs

/-- Entries with the same keys are those of the other list, looked up one by one. -/
theorem perm_lookedUp {entries entries' : List (Key × Value)}
    (hn : (Entries.keys entries).Nodup) (hn' : (Entries.keys entries').Nodup)
    (h : ∀ key, key ∈ Entries.keys entries' ↔ key ∈ Entries.keys entries) :
    entries'.Perm (entries.map fun e => (e.1, (Entries.get? e.1 entries').getD .null)) := by
  have hnodup : (entries.map fun e => (e.1, (Entries.get? e.1 entries').getD .null)).Nodup := by
    refine List.Nodup.of_map Prod.fst ?_
    rw [List.map_map]
    exact hn
  refine (List.perm_ext_iff_of_nodup (List.Nodup.of_map Prod.fst hn') hnodup).2 ?_
  rintro ⟨key, w⟩
  rw [List.mem_map]
  constructor
  · intro hm
    have hg := Entries.get?_of_mem hn' hm
    have hk : key ∈ Entries.keys entries := (h key).1 (List.mem_map_of_mem (f := Prod.fst) hm)
    obtain ⟨e, he, rfl⟩ := List.mem_map.1 hk
    exact ⟨e, he, by rw [hg, Option.getD_some]⟩
  · rintro ⟨e, he, heq⟩
    obtain ⟨rfl, rfl⟩ := Prod.mk.inj heq
    have hk : e.1 ∈ Entries.keys entries' := (h e.1).2 (List.mem_map_of_mem (f := Prod.fst) he)
    obtain ⟨w, hw⟩ := Entries.exists_get?_of_mem hk
    rw [hw, Option.getD_some]
    exact Entries.mem_of_get? hw

/-- A value is known by its texts, up to the order of its members. -/
theorem rearranged_of_hasText (hv' : v'.Throughout Keyed) (hv : v.Throughout Keyed)
    (h : ∀ path s, v'.HasText path s ↔ v.HasText path s) : Rearranged v' v := by
  induction v generalizing v' with
  | scalar v hs =>
    have ht := hv.self.1
    cases v with
    | string s =>
      have hs' : v' = .string s := hasText_nil.1 ((h [] s).2 (hasText_nil.2 rfl))
      rw [hs']
      exact .scalar rfl
    | array items => simp [Value.isContainer] at hs
    | object entries => simp [Value.isContainer] at hs
    | _ => exact ht.elim
  | array items _ => exact absurd rfl (hv.self.2 items)
  | object entries ih =>
    have ht := hv'.self.1
    cases v' with
    | string s => exact absurd (hasText_nil.1 ((h [] s).1 (hasText_nil.2 rfl))) (by simp)
    | array items => exact absurd rfl (hv'.self.2 items)
    | object entries' =>
      have hkeys : ∀ key, key ∈ Entries.keys entries' ↔ key ∈ Entries.keys entries := by
        intro key
        simp only [mem_keys_iff_hasText hv', mem_keys_iff_hasText hv, h]
      have hperm := perm_lookedUp hv.self.1.2.1 ht.2.1 hkeys
      have hr : Rearranged (.object entries') _ := .object
        (entries.map fun e => (e.1, (Entries.get? e.1 entries').getD .null, e.2))
        (by rwa [List.map_map]) ?_
      · simpa only [List.map_map, Function.comp_def, List.map_id'] using hr
      · intro p hp
        obtain ⟨e, he, rfl⟩ := List.mem_map.1 hp
        have hk : e.1 ∈ Entries.keys entries' := (hkeys e.1).2 (List.mem_map_of_mem he)
        obtain ⟨w, hw⟩ := Entries.exists_get?_of_mem hk
        dsimp only
        rw [hw, Option.getD_some]
        refine ih e he (hv'.entry _ (Entries.mem_of_get? hw)) (hv.entry e he) fun path s => ?_
        have hpath := h (.member e.1 :: path) s
        rwa [hasText_cons, hasText_cons, child?, child?, hw,
          Entries.get?_of_mem hv.self.1.2.1 he] at hpath
    | _ => exact ht.elim

/-! ## Queries -/

/-- The way that the key of a pair writes: what stands before the equals sign. -/
def keyWay (pair : String) : List String := Query.way (pair.toList.takeWhile (· != '='))

/-- A pair with exactly one equals sign is a leaf. -/
theorem exists_leaf {pair : String} (h : pair.toList.count '=' = 1) :
    ∃ l, leaf? pair.toList = some l ∧ l.way = keyWay pair := by
  have hmem : '=' ∈ pair.toList := List.count_pos_iff.1 (by omega)
  obtain ⟨key, text, hpair, hkey⟩ := List.eq_append_cons_of_mem hmem
  have htext : '=' ∉ text := by
    rw [hpair, List.count_append, List.count_cons_self, List.count_eq_zero.2 hkey] at h
    exact List.count_eq_zero.1 (by omega)
  have htake : pair.toList.takeWhile (· != '=') = key := by
    have hall : ∀ c ∈ key, (c != '=') = true := fun c hc => bne_iff_ne.2 fun he => hkey (he ▸ hc)
    rw [hpair, List.takeWhile_append_of_pos hall]
    simp
  refine ⟨⟨keyWay pair, unquote text⟩, ?_, rfl⟩
  rw [leaf?, keyWay, htake, hpair, Pair.ofChars, if_neg (by simp), Text.splitAt_append hkey,
    Text.splitAt_of_not_mem htext]

theorem map_way_leavesOf {pairs : List String} (h : ∀ p ∈ pairs, p.toList.count '=' = 1) :
    (leavesOf (pairs.map String.toList)).map Leaf.way = pairs.map keyWay := by
  induction pairs with
  | nil => rfl
  | cons p pairs ih =>
    obtain ⟨hp, hps⟩ := List.forall_mem_cons.1 h
    obtain ⟨l, hl, hway⟩ := exists_leaf hp
    have ih := ih hps
    rw [leavesOf] at ih
    rw [leavesOf, List.map_cons, List.map_cons, List.filterMap_cons_some hl, List.map_cons, ih,
      hway]

/-- Where all pairs are leaves, a query is read by putting these. -/
theorem putAll_of_placeAll {pairs : List (List Char)} (h : ∀ p ∈ pairs, ∃ l, leaf? p = some l)
    (hp : placeAll v (leavesOf pairs) = .ok w) : putAll v pairs = .ok w := by
  induction pairs generalizing v with
  | nil => exact congrArg Except.ok (Except.ok.inj hp)
  | cons pair pairs ih =>
    obtain ⟨⟨l, hl⟩, hrest⟩ := List.forall_mem_cons.1 h
    rw [leavesOf, List.filterMap_cons_some hl] at hp
    change Except.bind (place l.text l.way v) _ = _ at hp
    rw [leaf?] at hl
    split at hl
    · next key text hpair =>
      obtain rfl := Option.some.inj hl
      cases hu : place (unquote text) (Query.way key) v with
      | error e => simp [hu, Except.bind] at hp
      | ok u =>
        rw [hu] at hp
        exact putAll_cons_eq_ok_iff.2 (.inr (.inl ⟨key, text, u, hpair, hu, ih hrest hp⟩))
    · simp at hl

theorem putAll_join {pairs : List String} (h : ∀ p ∈ pairs, '&' ∉ p.toList) :
    putAll .null (Text.splitAt '&' ("&".intercalate pairs).toList)
      = putAll .null (pairs.map String.toList) := by
  by_cases hne : pairs = []
  · rw [hne]
    rfl
  · rw [String.toList_intercalate]
    show putAll .null (Text.splitAt '&' (['&'].intercalate (pairs.map String.toList))) = _
    rw [Text.splitAt_intercalate (by simpa using hne)]
    intro piece hm
    obtain ⟨p, hp, rfl⟩ := List.mem_map.1 hm
    exact h p hp

/-- A query without pairs is read as an object without members. -/
theorem decode_join_eq_ok_iff {pairs : List String} (hone : ∀ p ∈ pairs, p.toList.count '=' = 1)
    (hcut : ∀ p ∈ pairs, '&' ∉ p.toList) : decode ("&".intercalate pairs) = .ok v
      ↔ ∃ u, placeAll .null (leavesOf (pairs.map String.toList)) = .ok u
        ∧ (if u.isNull then .object [] else u) = v := by
  have hleaf : ∀ p ∈ pairs.map String.toList, ∃ l, leaf? p = some l := by
    intro piece hm
    obtain ⟨p, hp, rfl⟩ := List.mem_map.1 hm
    obtain ⟨l, hl, -⟩ := exists_leaf (hone p hp)
    exact ⟨l, hl⟩
  rw [decode, putAll_join hcut]
  constructor
  · intro h
    obtain ⟨u, hu, rfl⟩ := exists_of_map_eq_ok h
    exact ⟨u, placeAll_of_putAll hu, rfl⟩
  · rintro ⟨u, hu, rfl⟩
    rw [putAll_of_placeAll hleaf hu]
    rfl

theorem zero_not_mem_way {pairs : List String} (hone : ∀ p ∈ pairs, p.toList.count '=' = 1)
    (hzero : ∀ p ∈ pairs, "0" ∉ keyWay p) :
    ∀ l ∈ leavesOf (pairs.map String.toList), "0" ∉ l.way := by
  intro l hl
  have hm : l.way ∈ (leavesOf (pairs.map String.toList)).map Leaf.way := List.mem_map_of_mem hl
  rw [map_way_leavesOf hone] at hm
  obtain ⟨p, hp, he⟩ := List.mem_map.1 hm
  exact he ▸ hzero p hp

theorem exists_decode_iff {pairs : List String} (hone : ∀ p ∈ pairs, p.toList.count '=' = 1)
    (hcut : ∀ p ∈ pairs, '&' ∉ p.toList) (hzero : ∀ p ∈ pairs, "0" ∉ keyWay p) :
    (∃ v, decode ("&".intercalate pairs) = .ok v)
      ↔ pairs.Pairwise fun p q => Apart (keyWay p) (keyWay q) := by
  have hput : (∃ v, decode ("&".intercalate pairs) = .ok v)
      ↔ ∃ u, placeAll .null (leavesOf (pairs.map String.toList)) = .ok u := by
    simp only [decode_join_eq_ok_iff hone hcut]
    exact ⟨fun ⟨_, u, hu, _⟩ => ⟨u, hu⟩, fun ⟨u, hu⟩ => ⟨_, u, hu, rfl⟩⟩
  have hstart : ∀ l ∈ leavesOf (pairs.map String.toList), ∀ other s,
      Value.HasText .null (keyPath other) s → Apart other l.way :=
    fun _ _ _ _ h => absurd h not_hasText_null
  rw [hput, exists_placeAll_iff (fun h => absurd rfl h) (zero_not_mem_way hone hzero),
    and_iff_right hstart, ← List.pairwise_map, map_way_leavesOf hone, List.pairwise_map]

/-- A query without arrays can be read exactly if no way of a pair is that of another pair or goes
on from it.  Then the pairs may stand in any order: what is read is the same, up to the order of the
entries of objects. -/
theorem decode_perm {pairs : List String} (hone : ∀ p ∈ pairs, p.toList.count '=' = 1)
    (hcut : ∀ p ∈ pairs, '&' ∉ p.toList) (hzero : ∀ p ∈ pairs, "0" ∉ keyWay p) :
    ((∃ v, decode ("&".intercalate pairs) = .ok v)
        ↔ pairs.Pairwise fun p q => Apart (keyWay p) (keyWay q))
      ∧ ∀ v, decode ("&".intercalate pairs) = .ok v → ∀ pairs', pairs'.Perm pairs →
        ∃ v', decode ("&".intercalate pairs') = .ok v' ∧ Rearranged v' v := by
  refine ⟨exists_decode_iff hone hcut hzero, fun v hv pairs' hperm => ?_⟩
  have hone' : ∀ p ∈ pairs', p.toList.count '=' = 1 := fun p hp => hone p (hperm.subset hp)
  have hcut' : ∀ p ∈ pairs', '&' ∉ p.toList := fun p hp => hcut p (hperm.subset hp)
  have hzero' : ∀ p ∈ pairs', "0" ∉ keyWay p := fun p hp => hzero p (hperm.subset hp)
  have happart' : pairs'.Pairwise fun p q => Apart (keyWay p) (keyWay q) :=
    (hperm.pairwise_iff apart_comm.1).2 ((exists_decode_iff hone hcut hzero).1 ⟨v, hv⟩)
  obtain ⟨v', hv'⟩ := (exists_decode_iff hone' hcut' hzero').2 happart'
  refine ⟨v', hv', ?_⟩
  obtain ⟨u, hu, rfl⟩ := (decode_join_eq_ok_iff hone hcut).1 hv
  obtain ⟨u', hu', rfl⟩ := (decode_join_eq_ok_iff hone' hcut').1 hv'
  -- The texts are those of the leaves, and these are the same in both orders.
  have hleaves : (leavesOf (pairs'.map String.toList)).Perm (leavesOf (pairs.map String.toList)) :=
    (hperm.map _).filterMap _
  obtain ⟨hkeyed, htexts⟩ :=
    texts_of_placeAll (fun h => absurd rfl h) (zero_not_mem_way hone hzero) hu
  obtain ⟨hkeyed', htexts'⟩ :=
    texts_of_placeAll (fun h => absurd rfl h) (zero_not_mem_way hone' hzero') hu'
  have hsame : ∀ path s, u'.HasText path s ↔ u.HasText path s := by
    intro path s
    simp only [htexts, htexts', hleaves.mem_iff]
  have hnull : ∀ {a b : Value}, (a ≠ .null → a.Throughout Keyed) →
      (∀ path s, b.HasText path s ↔ a.HasText path s) → b = .null → a = .null := by
    rintro a _ ha hab rfl
    by_contra hne
    obtain ⟨way, s, hs⟩ := exists_hasText (ha hne)
    exact not_hasText_null ((hab _ _).2 hs)
  by_cases hn : u = .null
  · rw [hn, hnull hkeyed' (fun path s => (hsame path s).symm) hn]
    exact .refl _
  · have hn' : u' ≠ .null := fun h => hn (hnull hkeyed hsame h)
    rw [if_neg (mt Value.isNull_iff.1 hn), if_neg (mt Value.isNull_iff.1 hn')]
    exact rearranged_of_hasText (hkeyed' hn') (hkeyed hn) hsame

/-- A point that is coded, an empty key, an empty segment and a number that is not `0`. -/
def apartPairs : List String := ["a.b=1", "a%2Eb=", "=x", "a.c.=%26", "00=y"]

theorem decode_perm_apart :
    (∀ p ∈ apartPairs, p.toList.count '=' = 1) ∧ (∀ p ∈ apartPairs, '&' ∉ p.toList)
      ∧ (∀ p ∈ apartPairs, "0" ∉ keyWay p)
      ∧ (apartPairs.Pairwise fun p q => Apart (keyWay p) (keyWay q))
      ∧ ∃ v v', decode ("&".intercalate apartPairs) = .ok v
        ∧ decode ("&".intercalate apartPairs.reverse) = .ok v' ∧ Rearranged v' v := by
  have hone : ∀ p ∈ apartPairs, p.toList.count '=' = 1 := by decide +kernel
  have hcut : ∀ p ∈ apartPairs, '&' ∉ p.toList := by decide +kernel
  have hzero : ∀ p ∈ apartPairs, "0" ∉ keyWay p := by decide +kernel
  obtain ⟨hiff, hperm⟩ := decode_perm hone hcut hzero
  have hread : decode ("&".intercalate apartPairs) = .ok (.object
      [(.text "a", .object
          [(.text "b", .string "1"), (.text "c", .object [(.text "", .string "&")])]),
        (.text "a.b", .string ""), (.text "", .string "x"), (.text "00", .string "y")]) := by
    rfl
  obtain ⟨v', hv', hr⟩ := hperm _ hread _ (List.reverse_perm apartPairs)
  exact ⟨hone, hcut, hzero, hiff.1 ⟨_, hread⟩, _, v', hread, hv', hr⟩

end Query

end SchemaLang
