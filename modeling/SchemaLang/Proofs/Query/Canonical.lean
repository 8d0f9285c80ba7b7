import SchemaLang.Proofs.Query.Addresses
import SchemaLang.Proofs.Query.RoundTrip
import SchemaLang.Proofs.Value.Rearranged

/-!
# The canonical query of a value

Members are written in the order of their names, and no two members of an object have one name, so
the order in which they stand does not come into the query.  The query has one pair for every leaf,
that is, for every scalar and every container without anything in it.  Leaves are told apart by the
paths that lead to them; the texts of the pairs need not tell them apart, since a point in a key is
not coded.

* `leaves_eq_of_rearranged`: a value in another order has the same leaves, in the same order.
* `exists_leafPaths`: the leaves are those of the paths that end in one, each once.
* `encode_canonical`: the query of a value, and its pairs.
-/

namespace SchemaLang

namespace Value

/-- The segment that a step is written as. -/
def Step.segment : Step → String
  | .item i => toString i
  | .member k => k.toText

/-- The text of a leaf: a container without anything in it has none. -/
def leafText : Value → String
  | .array _ => ""
  | .object _ => ""
  | v => v.bareText

/-- A path that ends in a scalar or in a container without anything in it. -/
def EndsAt (v : Value) (path : List Step) : Prop :=
  ∃ w, v.lookup? path = some w ∧ ¬Query.HasParts w

theorem leafText_scalar {v : Value} (h : v.isContainer = false) : v.leafText = v.bareText := by
  cases v with
  | array items => simp [isContainer] at h
  | object entries => simp [isContainer] at h
  | _ => rfl

theorem endsAt_nil {v : Value} : v.EndsAt [] ↔ ¬Query.HasParts v := by
  simp [EndsAt, lookup?]

theorem endsAt_cons {v : Value} {step : Step} {path : List Step} :
    v.EndsAt (step :: path) ↔ ∃ w, child? step v = some w ∧ w.EndsAt path := by
  simp only [EndsAt, lookup?, Option.bind_eq_some_iff]
  constructor
  · rintro ⟨u, ⟨w, hw, hu⟩, hp⟩
    exact ⟨w, hw, u, hu, hp⟩
  · rintro ⟨w, hw, u, hu, hp⟩
    exact ⟨u, ⟨w, hw, hu⟩, hp⟩

end Value

namespace Query

open Value (Step Plain Rearranged members texts child?)

/-! ## Members in another order -/

theorem names_memberLeaves (entries : List (Key × Value)) :
    (memberLeaves entries).map Prod.fst = texts entries := by
  rw [memberLeaves_eq_map, members, List.map_map, List.map_map]
  rfl

theorem leaves_object_sort {entries : List (Key × Value)} (h : entries ≠ []) :
    leaves (.object entries)
      = (sortByName (memberLeaves entries)).flatMap fun m => m.2.map (Leaf.under m.1) := by
  obtain ⟨e, entries, rfl⟩ := List.exists_cons_of_ne_nil h
  rw [leaves]

theorem itemLeaves_congr {ps : List (Value × Value)} (h : ∀ p ∈ ps, leaves p.1 = leaves p.2)
    (i : Nat) : itemLeaves i (ps.map Prod.fst) = itemLeaves i (ps.map Prod.snd) := by
  induction ps generalizing i with
  | nil => rfl
  | cons p ps ih =>
    obtain ⟨hp, hps⟩ := List.forall_mem_cons.1 h
    rw [List.map_cons, List.map_cons, itemLeaves, itemLeaves, hp, ih hps]

/-- A value whose entries stand in another order has the same leaves in the same order. -/
theorem leaves_eq_of_rearranged {v' v : Value} (h : Rearranged v' v) (hv : v.Throughout Plain) :
    leaves v' = leaves v := by
  induction h with
  | scalar _ => rfl
  | array ps _ ih =>
    by_cases hne : ps = []
    · rw [hne]
      rfl
    · have hitems : ∀ p ∈ ps, leaves p.1 = leaves p.2 := fun p hp =>
        ih p hp (hv.item _ (List.mem_map_of_mem hp))
      rw [leaves_array (by simpa using hne), leaves_array (by simpa using hne),
        itemLeaves_congr hitems]
  | @object entries ps hp _ ih =>
    by_cases hne : ps = []
    · subst hne
      rw [List.map_nil] at hp
      rw [hp.eq_nil]
      rfl
    · have hne' : entries ≠ [] := by
        rintro rfl
        exact hne (by simpa using hp.symm.eq_nil)
      have hsame : memberLeaves (ps.map fun p => (p.1, p.2.1))
          = memberLeaves (ps.map fun p => (p.1, p.2.2)) := by
        simp only [memberLeaves_eq_map, members, List.map_map]
        refine List.map_congr_left fun p hm => ?_
        exact congrArg (p.1.toText, ·) (ih p hm (hv.entry _ (List.mem_map_of_mem hm)))
      have hperm : (memberLeaves entries).Perm (memberLeaves (ps.map fun p => (p.1, p.2.2))) := by
        rw [← hsame, memberLeaves_eq_map, memberLeaves_eq_map, members, members]
        exact (hp.map _).map _
      have hnodup := hv.self.2
      rw [← names_memberLeaves] at hnodup
      rw [leaves_object_sort hne', leaves_object_sort (by simpa using hne),
        sortByName_eq_of_perm hperm hnodup]

/-- What has no parts is the same in every order. -/
theorem encode_eq_of_rearranged {v' v : Value} (h : Rearranged v' v) (hv : v.Throughout Plain) :
    encode v' = encode v := by
  have hparts : HasParts v → HasParts v' := by
    intro hp
    cases h with
    | scalar _ => exact hp
    | array ps _ => simpa [HasParts] using hp
    | @object entries ps hperm _ =>
      rintro rfl
      exact hp (by simpa using hperm.symm.eq_nil)
  by_cases hp : HasParts v
  · rw [encode_container hp, encode_container (hparts hp), leaves_eq_of_rearranged h hv]
  · cases h with
    | scalar _ => rfl
    | array ps _ =>
      have hnil : ps = [] := by simpa [HasParts] using hp
      rw [hnil]
      rfl
    | @object entries ps hperm _ =>
      have hnil : ps = [] := by simpa [HasParts] using hp
      subst hnil
      rw [List.map_nil] at hperm
      rw [hperm.eq_nil]
      rfl

/-! ## The paths to leaves -/

/-- The leaf at the end of a path. -/
def leafAt (v : Value) (path : List Step) : Leaf :=
  ⟨path.map Step.segment, ((v.lookup? path).getD .null).leafText⟩

theorem leafAt_cons {v w : Value} {step : Step} (h : child? step v = some w) (path : List Step) :
    leafAt v (step :: path) = (leafAt w path).under step.segment := by
  rw [leafAt, leafAt, Leaf.under, Value.lookup?, h, List.map_cons]
  rfl

/-- Paths that end in all leaves of a value, each at one of them, in the order of the leaves. -/
structure LeafPaths (v : Value) (paths : List (List Step)) : Prop where
  nodup : paths.Nodup
  mem : ∀ path, path ∈ paths ↔ v.EndsAt path
  leaves : leaves v = paths.map (leafAt v)

theorem leafPaths_of_leaf {v : Value} (h : ¬HasParts v)
    (hc : ∀ step, child? step v = none) (hl : leaves v = [⟨[], v.leafText⟩]) :
    LeafPaths v [[]] := by
  refine ⟨List.nodup_singleton _, fun path => ?_, hl⟩
  cases path with
  | nil => simp [Value.endsAt_nil, h]
  | cons step path => simp [Value.endsAt_cons, hc]

/-- The paths into a container are the paths into what is in it, one step after the other. -/
theorem leafPaths_of_steps {v : Value} (hp : HasParts v) (steps : List (Step × Value))
    (paths : Value → List (List Step)) (hn : (steps.map Prod.fst).Nodup)
    (hc : ∀ step w, child? step v = some w ↔ (step, w) ∈ steps)
    (h : ∀ s ∈ steps, LeafPaths s.2 (paths s.2))
    (hl : leaves v = steps.flatMap fun s => (Query.leaves s.2).map (Leaf.under s.1.segment)) :
    LeafPaths v (steps.flatMap fun s => (paths s.2).map (s.1 :: ·)) := by
  refine ⟨?_, fun path => ?_, ?_⟩
  · rw [List.nodup_flatMap]
    refine ⟨fun s hs => (h s hs).nodup.map (List.cons_injective), ?_⟩
    refine (List.pairwise_map.1 hn).imp fun hne => ?_
    intro path h₁ h₂
    obtain ⟨p₁, -, rfl⟩ := List.mem_map.1 h₁
    obtain ⟨p₂, -, he⟩ := List.mem_map.1 h₂
    exact hne (List.cons.inj he).1.symm
  · rw [List.mem_flatMap]
    cases path with
    | nil => simp [Value.endsAt_nil, hp]
    | cons step path =>
      rw [Value.endsAt_cons]
      constructor
      · rintro ⟨s, hs, hm⟩
        obtain ⟨p, hmem, he⟩ := List.mem_map.1 hm
        obtain ⟨rfl, rfl⟩ := List.cons.inj he
        exact ⟨s.2, (hc _ _).2 hs, ((h s hs).mem p).1 hmem⟩
      · rintro ⟨w, hw, hends⟩
        have hs := (hc step w).1 hw
        exact ⟨(step, w), hs, List.mem_map_of_mem (((h _ hs).mem path).2 hends)⟩
  · rw [hl, List.map_flatMap]
    refine List.flatMap_congr fun s hs => ?_
    rw [(h s hs).leaves, List.map_map, List.map_map]
    refine List.map_congr_left fun path _ => ?_
    rw [Function.comp_apply, Function.comp_apply, leafAt_cons ((hc _ _).2 hs)]

theorem itemLeaves_eq_flatMap (items : List Value) (i : Nat) :
    itemLeaves i items
      = (items.zipIdx i).flatMap fun s => (leaves s.1).map (Leaf.under (toString s.2)) := by
  induction items generalizing i with
  | nil => rfl
  | cons v items ih => rw [itemLeaves, List.zipIdx_cons, List.flatMap_cons, ih]

theorem exists_leafPaths_array {items : List Value}
    (h : ∀ v ∈ items, ∃ paths, LeafPaths v paths) : ∃ paths, LeafPaths (.array items) paths := by
  by_cases hnil : items = []
  · subst hnil
    refine ⟨[[]], leafPaths_of_leaf (fun hp => hp rfl) (fun step => ?_) rfl⟩
    cases step <;> simp [child?]
  have hne : HasParts (.array items) := hnil
  choose! paths hpaths using h
  let steps : List (Step × Value) := items.zipIdx.map fun s => (.item s.2, s.1)
  have hnodup : (steps.map Prod.fst).Nodup := by
    have hindices : (items.zipIdx.map Prod.snd).Nodup := by
      rw [List.zipIdx_map_snd]
      exact List.nodup_range'
    have hsteps := hindices.map (f := Step.item) fun i j he => Step.item.inj he
    rw [List.map_map] at hsteps
    rw [List.map_map]
    exact hsteps
  refine ⟨_, leafPaths_of_steps hne steps paths hnodup ?_ ?_ ?_⟩
  · intro step w
    cases step with
    | item i => simp [steps, child?, List.mem_zipIdx_iff_getElem?]
    | member k => simp [steps, child?]
  · intro s hs
    obtain ⟨s, hm, rfl⟩ := List.mem_map.1 hs
    exact hpaths _ (List.fst_mem_of_mem_zipIdx hm)
  · rw [leaves_array hne, itemLeaves_eq_flatMap, List.flatMap_map]
    rfl

/-- A key leads to a member where all keys are texts and no two are the same. -/
theorem child?_object {entries : List (Key × Value)} (hp : Plain (.object entries)) {step : Step}
    {w : Value} : child? step (.object entries) = some w
      ↔ ∃ m ∈ members entries, (Step.member (.text m.1), m.2) = (step, w) := by
  have hkeys : (Entries.keys entries).Nodup := Value.nodup_keys_of_texts hp.2
  have htext : ∀ e ∈ entries, Key.text e.1.toText = e.1 := by
    rintro ⟨k, v⟩ he
    cases k with
    | null => exact absurd rfl (hp.1 _ he)
    | text s => rfl
  constructor
  · intro h
    cases step with
    | item i => simp [child?] at h
    | member k =>
      have he := Entries.mem_of_get? h
      refine ⟨(k.toText, w), List.mem_map_of_mem he, ?_⟩
      rw [htext _ he]
  · rintro ⟨m, hm, heq⟩
    obtain ⟨e, he, rfl⟩ := List.mem_map.1 hm
    obtain ⟨rfl, rfl⟩ := Prod.mk.inj heq
    rw [htext e he]
    exact Entries.get?_of_mem hkeys he

theorem exists_leafPaths_object {entries : List (Key × Value)} (hp : Plain (.object entries))
    (h : ∀ e ∈ entries, ∃ paths, LeafPaths e.2 paths) :
    ∃ paths, LeafPaths (.object entries) paths := by
  by_cases hnil : entries = []
  · subst hnil
    refine ⟨[[]], leafPaths_of_leaf (fun hp => hp rfl) (fun step => ?_) rfl⟩
    cases step <;> simp [child?, Entries.get?]
  have hvalues : ∀ v ∈ entries.map Prod.snd, ∃ paths, LeafPaths v paths := by
    intro v hv
    obtain ⟨e, he, rfl⟩ := List.mem_map.1 hv
    exact h e he
  have hne : HasParts (.object entries) := hnil
  choose! paths hpaths using hvalues
  have hsorted := sortByName_perm (members entries)
  let steps : List (Step × Value) :=
    (sortByName (members entries)).map fun m => (.member (.text m.1), m.2)
  have hnodup : (steps.map Prod.fst).Nodup := by
    have hnames : ((sortByName (members entries)).map Prod.fst).Nodup := by
      rw [(hsorted.map _).nodup_iff, members, List.map_map]
      exact hp.2
    have hsteps := hnames.map (f := fun name => Step.member (.text name)) fun a b he =>
      Key.text.inj (Step.member.inj he)
    rw [List.map_map] at hsteps
    rw [List.map_map]
    exact hsteps
  refine ⟨_, leafPaths_of_steps hne steps paths hnodup ?_ ?_ ?_⟩
  · intro step w
    rw [child?_object hp, List.mem_map]
    exact exists_congr fun m => and_congr_left fun _ => hsorted.mem_iff.symm
  · intro s hs
    obtain ⟨m, hm, rfl⟩ := List.mem_map.1 hs
    obtain ⟨e, he, rfl⟩ := List.mem_map.1 (hsorted.subset hm)
    exact hpaths _ (List.mem_map_of_mem he)
  · rw [leaves_object hne, List.flatMap_map]
    rfl

theorem exists_leafPaths {v : Value} (hv : v.Throughout Plain) : ∃ paths, LeafPaths v paths := by
  induction v with
  | scalar v hs =>
    refine ⟨[[]], leafPaths_of_leaf ?_ ?_ ?_⟩
    · cases v <;> simp_all [HasParts, Value.isContainer]
    · intro step
      cases v <;> cases step <;> simp_all [child?, Value.isContainer]
    · rw [leaves_scalar hs, Value.leafText_scalar hs]
  | array items ih => exact exists_leafPaths_array fun v hm => ih v hm (hv.item v hm)
  | object entries ih =>
    exact exists_leafPaths_object hv.self fun e hm => ih e hm (hv.entry e hm)

/-! ## Queries -/

/-- A pair has one equals sign, between its key and its text. -/
theorem count_pair (l : Leaf) : l.pair.toList.count '=' = 1 := by
  have hkey : (keyText l.way).toList.count '=' = 0 :=
    List.count_eq_zero.2 (not_mem_keyText (.inr rfl) l.way)
  have htext : (Text.Percent.encode l.text).toList.count '=' = 0 :=
    List.count_eq_zero.2 (Text.Percent.not_mem_encode (.inr rfl) l.text)
  rw [toList_pair, List.count_append, List.count_cons_self, hkey, htext]

/-- A value that has been read from JSON has one query, in whatever order the entries of its objects
stand.  Where it is a container with something in it, the query is cut at the ampersands into one
pair for every leaf, each of which has one equals sign. -/
theorem encode_canonical {v : Value} (hv : v.Throughout Plain) :
    (∀ v', Rearranged v' v → encode v' = encode v)
      ∧ (HasParts v → ∃ paths : List (List Step), paths.Nodup
        ∧ (∀ path, path ∈ paths ↔ v.EndsAt path)
        ∧ Text.splitAt '&' (encode v).toList = (paths.map fun path => (leafAt v path).pair.toList)
        ∧ ∀ pair ∈ Text.splitAt '&' (encode v).toList, pair.count '=' = 1) := by
  refine ⟨fun v' h => encode_eq_of_rearranged h hv, fun hp => ?_⟩
  obtain ⟨paths, hpaths⟩ := exists_leafPaths hv
  refine ⟨paths, hpaths.nodup, hpaths.mem, ?_, ?_⟩
  · rw [splitAt_encode hp, hpaths.leaves, List.map_map]
    rfl
  · rw [splitAt_encode hp]
    intro pair hm
    obtain ⟨l, -, rfl⟩ := List.mem_map.1 hm
    exact count_pair l

/-- Separators in a key and in a text, and a container without anything in it. -/
def separated : Json :=
  .object
    [("b", .array []), ("a=&.", .object [("y", .string "&="), ("x", .array [.bool true, .null])])]

/-- The members of both objects the other way round. -/
def separatedTurned : Value :=
  .object
    [(.text "a=&.", .object [(.text "x", .array [.bool true, .null]), (.text "y", .string "&=")]),
      (.text "b", .array [])]

theorem valid_separated : separated.Valid := by
  refine .object (by decide) ?_
  simp only [List.forall_mem_cons, List.not_mem_nil, false_imp_iff, implies_true, and_true]
  refine ⟨.array (by decide) (by simp), .object (by decide) ?_⟩
  simp only [List.forall_mem_cons, List.not_mem_nil, false_imp_iff, implies_true, and_true]
  refine ⟨.string _, .array (by decide) ?_⟩
  simp only [List.forall_mem_cons, List.not_mem_nil, false_imp_iff, implies_true, and_true]
  exact ⟨.bool _, .null⟩

theorem rearranged_separatedTurned : Rearranged separatedTurned (.ofJson separated) := by
  have hinner := Rearranged.object
    [(.text "y", .string "&=", .string "&="),
      (.text "x", .array [.bool true, .null], .array [.bool true, .null])]
    (.swap _ _ []) (by simpa using ⟨.refl _, .refl _⟩)
  exact .object [(.text "b", .array [], .array []), (.text "a=&.", _, _)] (.swap _ _ [])
    (by simpa using ⟨.refl _, hinner⟩)

theorem encode_canonical_separated :
    (Value.ofJson separated).Throughout Plain
      ∧ Rearranged separatedTurned (.ofJson separated)
      ∧ encode separatedTurned = encode (.ofJson separated)
      ∧ encode (.ofJson separated) = "a%3D%26..x.0=true&a%3D%26..x.1=null&a%3D%26..y=%26%3D&b="
      ∧ HasParts (.ofJson separated)
      ∧ ∃ paths : List (List Step), paths.Nodup
        ∧ (∀ path, path ∈ paths ↔ (Value.ofJson separated).EndsAt path)
        ∧ Text.splitAt '&' (encode (.ofJson separated)).toList
          = (paths.map fun path => (leafAt (.ofJson separated) path).pair.toList) := by
  have hplain := Value.plain_ofJson valid_separated
  have hparts : HasParts (.ofJson separated) := by simp [separated, Value.ofJson, HasParts,
    Value.ofJsonMembers]
  obtain ⟨hsame, hpairs⟩ := encode_canonical hplain
  obtain ⟨paths, hnodup, hmem, hcut, -⟩ := hpairs hparts
  exact ⟨hplain, rearranged_separatedTurned, hsame _ rearranged_separatedTurned, by rfl, hparts,
    paths, hnodup, hmem, hcut⟩

end Query

end SchemaLang
