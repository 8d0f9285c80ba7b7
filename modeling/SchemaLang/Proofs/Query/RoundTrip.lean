import SchemaLang.Proofs.Query.Placing
import SchemaLang.Proofs.Text.Pieces

/-!
# Queries are read back

What is written into a pair contains none of the characters that queries are cut at, so reading a
query puts the leaves of the value that has been written.

* `decode_encode_container`: what an array or object is read back as.
-/

namespace SchemaLang.Query

open Value (members texts asTexts Writable)

/-- A leaf of an object or array, whose way can be cut into its segments again. -/
structure Leaf.Readable (l : Leaf) : Prop where
  ne_nil : l.way ≠ []
  point : ∀ segment ∈ l.way, '.' ∉ segment.toList

/-! ## What pairs do not contain -/

theorem toList_keyText (way : List String) : (keyText way).toList
    = ['.'].intercalate (way.map fun segment => (Text.Percent.encode segment).toList) := by
  rw [keyText, String.toList_intercalate, List.map_map]
  rfl

theorem not_mem_keyText {c : Char} (hc : c = '&' ∨ c = '=') (way : List String) :
    c ∉ (keyText way).toList := by
  intro h
  rw [toList_keyText] at h
  rcases Text.mem_intercalate h with rfl | ⟨piece, hp, hm⟩
  · rcases hc with hc | hc <;> exact absurd hc (by decide)
  · obtain ⟨segment, -, rfl⟩ := List.mem_map.1 hp
    exact Text.Percent.not_mem_encode hc segment hm

theorem toList_pair (l : Leaf) :
    l.pair.toList = (keyText l.way).toList ++ '=' :: (Text.Percent.encode l.text).toList := by
  rw [Leaf.pair, String.toList_append, String.toList_append, List.append_assoc]
  rfl

theorem not_mem_pair (l : Leaf) : '&' ∉ l.pair.toList := by
  intro h
  rw [toList_pair, List.mem_append, List.mem_cons] at h
  rcases h with h | h | h
  · exact not_mem_keyText (.inl rfl) _ h
  · exact absurd h (by decide)
  · exact Text.Percent.not_mem_encode (.inl rfl) _ h

/-! ## Reading a pair -/

theorem unquote_encode (s : String) : unquote (Text.Percent.encode s).toList = s := by
  rw [unquote, String.ofList_toList, Text.Percent.decode_encode]

theorem way_keyText {l : Leaf} (h : l.Readable) : way (keyText l.way).toList = l.way := by
  rw [way, toList_keyText, Text.splitAt_intercalate, List.map_map]
  · rw [List.map_congr_left (g := id), List.map_id]
    intro segment _
    rw [Function.comp_apply, unquote_encode, id_eq]
  · simpa using h.ne_nil
  · intro piece hp
    obtain ⟨segment, hs, rfl⟩ := List.mem_map.1 hp
    exact Text.Percent.point_not_mem_encode (h.point segment hs)

theorem ofChars_pair (l : Leaf) : Pair.ofChars l.pair.toList
    = .leaf (keyText l.way).toList (Text.Percent.encode l.text).toList := by
  rw [toList_pair, Pair.ofChars, if_neg (by simp),
    Text.splitAt_append (not_mem_keyText (.inr rfl) _),
    Text.splitAt_of_not_mem (Text.Percent.not_mem_encode (.inr rfl) _)]

theorem putLeaf_pair {l : Leaf} (h : l.Readable) {v w : Value} (hp : place l.text l.way v = .ok w) :
    putLeaf v (keyText l.way).toList (Text.Percent.encode l.text).toList = .ok w := by
  rw [putLeaf, unquote_encode, way_keyText h, hp]
  rfl

theorem putAll_pairs {ls : List Leaf} (h : ∀ l ∈ ls, l.Readable) {v w : Value}
    (hp : placeAll v ls = .ok w) : putAll v (ls.map fun l => l.pair.toList) = .ok w := by
  induction ls generalizing v with
  | nil =>
    cases hp
    rfl
  | cons l ls ih =>
    obtain ⟨hl, hls⟩ := List.forall_mem_cons.1 h
    rw [placeAll] at hp
    cases hu : place l.text l.way v with
    | error e => simp [hu, Bind.bind, Except.bind] at hp
    | ok u =>
      rw [hu] at hp
      rw [List.map_cons, putAll, ofChars_pair]
      show (putLeaf v _ _).bind _ = _
      rw [putLeaf_pair hl hu]
      exact ih hls hp

/-! ## The leaves of a container -/

theorem point_not_mem_toString (i : Nat) : '.' ∉ (toString i).toList := by
  intro h
  rw [show (toString i).toList = Nat.toDigits 10 i from Nat.toList_repr] at h
  exact absurd (Number.isDigit_of_mem_toDigits h) (by decide)

/-- No segment of a way inside a value contains a point. -/
def Pointless (ls : List Leaf) : Prop := ∀ l ∈ ls, ∀ segment ∈ l.way, '.' ∉ segment.toList

theorem pointless_under_iff {ls : List Leaf} (hne : ls ≠ []) {segment : String} :
    Pointless (ls.map (Leaf.under segment)) ↔ '.' ∉ segment.toList ∧ Pointless ls := by
  constructor
  · intro h
    obtain ⟨l, hl⟩ := List.exists_mem_of_ne_nil ls hne
    have hway : ∀ l ∈ ls, ∀ s ∈ segment :: l.way, '.' ∉ s.toList := fun l hl =>
      h _ (List.mem_map_of_mem hl)
    exact ⟨(List.forall_mem_cons.1 (hway l hl)).1,
      fun l hl => (List.forall_mem_cons.1 (hway l hl)).2⟩
  · rintro ⟨hs, h⟩ _ hmem
    obtain ⟨l, hl, rfl⟩ := List.mem_map.1 hmem
    exact List.forall_mem_cons.2 ⟨hs, h l hl⟩

theorem pointless_itemLeaves_iff {items : List Value} (i : Nat) :
    Pointless (itemLeaves i items) ↔ ∀ v ∈ items, Pointless (leaves v) := by
  induction items generalizing i with
  | nil => simp [itemLeaves, Pointless]
  | cons v items ih =>
    have hu : Pointless ((leaves v).map (Leaf.under (toString i))) ↔ Pointless (leaves v) := by
      rw [pointless_under_iff (leaves_ne_nil v), and_iff_right (point_not_mem_toString i)]
    rw [itemLeaves, List.forall_mem_cons, ← ih (i + 1), ← hu]
    exact List.forall_mem_append

theorem pointless_members_iff {ms : List (String × Value)} :
    Pointless (ms.flatMap fun m => (leaves m.2).map (Leaf.under m.1))
      ↔ ∀ m ∈ ms, '.' ∉ m.1.toList ∧ Pointless (leaves m.2) := by
  induction ms with
  | nil => simp [Pointless]
  | cons m ms ih =>
    rw [List.flatMap_cons, List.forall_mem_cons, ← ih, ← pointless_under_iff (leaves_ne_nil m.2)]
    exact List.forall_mem_append

/-- Every key stands on the way to some leaf. -/
theorem pointless_leaves_iff {v : Value} : Pointless (leaves v) ↔ v.Throughout Unpointed := by
  induction v with
  | scalar v hs =>
    refine iff_of_true ?_ (.scalar hs ?_)
    · rw [leaves_scalar hs]
      simp [Pointless]
    · cases v <;> trivial
  | array items ih =>
    by_cases hne : items = []
    · subst hne
      refine iff_of_true ?_ (.array trivial (by simp))
      simp [leaves, Pointless]
    · rw [leaves_array hne, pointless_itemLeaves_iff]
      constructor
      · exact fun h => .array trivial fun v hv => (ih v hv).1 (h v hv)
      · exact fun h v hv => (ih v hv).2 (h.item v hv)
  | object entries ih =>
    by_cases hne : entries = []
    · subst hne
      refine iff_of_true ?_ (.object (by simp [Unpointed, texts]) (by simp))
      simp [leaves, Pointless]
    · have hmem : ∀ m, m ∈ sortByName (members entries) ↔ ∃ e ∈ entries, (e.1.toText, e.2) = m :=
        fun m => (sortByName_perm _).mem_iff.trans List.mem_map
      rw [leaves_object hne, pointless_members_iff]
      constructor
      · intro h
        refine .object (fun t ht => ?_) fun e he => ?_
        · obtain ⟨e, he, rfl⟩ := List.mem_map.1 ht
          exact (h _ ((hmem _).2 ⟨e, he, rfl⟩)).1
        · exact (ih e he).1 (h _ ((hmem _).2 ⟨e, he, rfl⟩)).2
      · intro h m hm
        obtain ⟨e, he, rfl⟩ := (hmem m).1 hm
        exact ⟨h.self _ (List.mem_map_of_mem he), (ih e he).2 (h.entry e he)⟩

theorem readable_of_mem_leaves {v : Value} (hp : HasParts v) (hu : v.Throughout Unpointed) :
    ∀ l ∈ leaves v, l.Readable :=
  fun l hl => ⟨way_ne_nil hp l hl, pointless_leaves_iff.2 hu l hl⟩

/-- A query is cut into the pairs that it has been joined from. -/
theorem splitAt_encode {v : Value} (h : HasParts v) :
    Text.splitAt '&' (encode v).toList = (leaves v).map fun l => l.pair.toList := by
  rw [encode_container h, String.toList_intercalate, List.map_map]
  refine Text.splitAt_intercalate ?_ fun piece hmem => ?_
  · simpa using leaves_ne_nil v
  · obtain ⟨l, -, rfl⟩ := List.mem_map.1 hmem
    exact not_mem_pair l

theorem decode_encode_container {v : Value} (hp : HasParts v) (hw : v.Throughout Writable)
    (hn : v.Throughout Named) (hu : v.Throughout Unpointed) :
    decode (encode v) = .ok (asTexts sortByName v) := by
  have hput := putAll_pairs (readable_of_mem_leaves hp hu) (placeAll_leaves hw hn)
  rw [decode, splitAt_encode hp, hput]
  cases v with
  | array items =>
    rw [Value.asTexts_array hp]
    rfl
  | object entries =>
    rw [Value.asTexts_object_sort hp]
    rfl
  | _ => exact hp.elim

theorem decode_encode_object {entries : List (Key × Value)} (hne : entries ≠ [])
    (hw : (Value.object entries).Throughout Writable)
    (ha : (Value.object entries).Throughout Addressable) :
    decode (encode (.object entries)) = .ok (asTexts sortByName (.object entries)) :=
  decode_encode_container hne hw (ha.imp fun _ => Addressable.named)
    (ha.imp fun _ => Addressable.unpointed)

theorem decode_encode_empty : decode (encode (.object [])) = .ok (.object []) := by
  rfl

end SchemaLang.Query
