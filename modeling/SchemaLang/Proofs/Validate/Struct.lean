import SchemaLang.Proofs.Validate.Equivalence

/-!
# Validating an object as a struct

Whether all keys of an object are known is decided by counting: as many members came out as there
are entries.  Members of one name come out as one entry, and no entry comes out that did not go in,
so the count is right exactly if no key is left over.

* `Validate.exists_asStruct_iff`: an object is accepted if it suits the members and has no other
  keys.
* `Validate.pairwise_keys`: the entries come out in the order in which the members' names first
  stand there.
* `Validate.asStruct_of_unknown`: the key that is named when there are others.
* `struct_exact`: all of it, for the members that a struct lists.
-/

namespace SchemaLang

namespace Validate

variable {types : Types} {s : Struct} {entries : List (Key × Value)}

/-- Validates an object as a struct. -/
def asStruct (types : Types) (s : Struct) (entries : List (Key × Value)) : Check :=
  struct types s (.object entries) (memberChecks types entries)

theorem value_object_of_struct {name : String} (hd : types.get? name = some (.struct s))
    (path : Path) : value types (.object entries) (.user name) path
      = asStruct types s entries (.user name) path := by
  have ht : types.isTypedef (.user name) = false := isTypedef_of_struct hd
  simp only [value, resolved, Types.isCircular_of_not_isTypedef ht,
    Types.resolve_of_not_isTypedef ht, alongAliases, struct?_eq_some_iff.2 hd]
  rfl

theorem asStruct_eq_ok_iff {ty : TypeRef} {path : Path} {w : Value} :
    asStruct types s entries ty path = .ok w ↔ ReadsMembers types s entries w :=
  struct_eq_ok_iff fun _ _ _ _ _ => value_eq_ok_iff

/-! ## What a struct asks of an object -/

/-- The members of a struct that an object has are right, and it has those that it must have. -/
structure Suits (types : Types) (s : Struct) (IsMember : Member → Prop)
    (entries : List (Key × Value)) (path : Path) : Prop where
  single : s.union = true → entries.length = 1
  complete : s.union = false → ∀ m, IsMember m → m.optional = false →
    .text m.name ∈ Entries.keys entries
  valid : ∀ m, IsMember m → ∀ v, Entries.get? (.text m.name) entries = some v →
    ∃ w, element v (value types v) m.type m.attr (path ++ [m.name]) = .ok w

/-- Each of the keys is the name of a member. -/
def Known (IsMember : Member → Prop) (keys : List Key) : Prop :=
  ∀ k ∈ keys, ∃ m, IsMember m ∧ k = .text m.name

theorem exists_element_iff {v : Value} {ty : TypeRef} {attr : Option Attributes} {path : Path} :
    (∃ w, element v (value types v) ty attr path = .ok w)
      ↔ ∃ w, Reads types (.site ty attr) v w :=
  exists_congr fun _ => element_eq_ok_iff fun _ => value_eq_ok_iff

theorem exists_forall₂_iff {α β : Type} {R : α → β → Prop} {l : List α} :
    (∃ ws, List.Forall₂ R l ws) ↔ ∀ a ∈ l, ∃ w, R a w := by
  induction l with
  | nil => simp
  | cons a l ih => simp [List.forall₂_cons_left_iff, ← ih]

/-- The members that an object has, with the values that they are read as. -/
theorem Suits.readings {path : Path} (h : Suits types s (· ∈ types.members s) entries path) :
    (∀ m ∈ types.members s, .text m.name ∉ Entries.keys entries →
        m.optional = true ∨ s.union = true)
      ∧ ∃ ws, List.Forall₂ (fun p w => Reads types (.site p.1.type p.1.attr) p.2 w)
          (present (types.members s) entries) ws := by
  constructor
  · intro m hm hk
    cases hu : s.union with
    | true => exact .inr rfl
    | false =>
      refine .inl (Bool.eq_true_of_not_eq_false ?_)
      intro ho
      exact hk (h.complete hu m hm ho)
  · rw [exists_forall₂_iff]
    intro p hp
    obtain ⟨hm, hg⟩ := mem_present.1 hp
    exact exists_element_iff.1 (h.valid p.1 hm p.2 hg)

theorem suits_of_readsMembers {w : Value} {path : Path} (h : ReadsMembers types s entries w) :
    Suits types s (· ∈ types.members s) entries path := by
  obtain ⟨hu, -, ho, ws, hws, -⟩ := h
  refine ⟨hu, ?_, ?_⟩
  · intro hplain m hm hreq
    by_contra hk
    rcases ho m hm hk with h | h
    · simp [hreq] at h
    · simp [hplain] at h
  · intro m hm v hg
    exact exists_element_iff.2 (exists_forall₂_iff.1 ⟨ws, hws⟩ (m, v) (mem_present.2 ⟨hm, hg⟩))

theorem exists_asStruct_iff {ty : TypeRef} {path : Path} :
    (∃ w, asStruct types s entries ty path = .ok w)
      ↔ Suits types s (· ∈ types.members s) entries path
        ∧ Known (· ∈ types.members s) (Entries.keys entries) := by
  simp only [asStruct_eq_ok_iff]
  constructor
  · rintro ⟨w, h⟩
    exact ⟨suits_of_readsMembers h, h.2.1⟩
  · rintro ⟨hs, hk⟩
    obtain ⟨ho, ws, hws⟩ := hs.readings
    exact ⟨_, hs.single, hk, ho, ws, hws, rfl⟩

/-! ## What comes out -/

theorem map_fst_present (members : List Member) (entries : List (Key × Value)) :
    ((present members entries).map fun p => Key.text p.1.name)
      = (members.map fun m => Key.text m.name).filter (· ∈ Entries.keys entries) := by
  induction members with
  | nil => rfl
  | cons m members ih =>
    rw [present_cons, List.map_cons, List.filter_cons]
    cases hg : Entries.get? (.text m.name) entries with
    | none =>
      have hm : Key.text m.name ∉ Entries.keys entries := Entries.get?_eq_none_iff.1 hg
      simpa [hm] using ih
    | some v =>
      have hm : Key.text m.name ∈ Entries.keys entries :=
        List.mem_map_of_mem (f := Prod.fst) (Entries.mem_of_get? hg)
      simpa [hm] using ih

/-- The keys that come out are the names of members that are keys, each in its first place. -/
theorem keys_of_readsMembers {w : Value} (h : ReadsMembers types s entries w) :
    ∃ out, w = .object out ∧ Entries.keys out
      = (((types.members s).map fun m => Key.text m.name).filter
          (· ∈ Entries.keys entries)).eraseDups := by
  obtain ⟨-, -, -, ws, hws, rfl⟩ := h
  refine ⟨_, rfl, ?_⟩
  have hl : ((present (types.members s) entries).map Prod.fst).length = ws.length := by
    rw [List.length_map, hws.length_eq]
  rw [Entries.keys_ofList, keys_named hl, List.map_map, ← map_fst_present]
  rfl

theorem mem_keys_iff {out : List (Key × Value)}
    (h : ReadsMembers types s entries (.object out)) (k : Key) :
    k ∈ Entries.keys out ↔ k ∈ Entries.keys entries := by
  obtain ⟨_, he, hk⟩ := keys_of_readsMembers h
  cases he
  rw [hk, List.mem_eraseDups, List.mem_filter, decide_eq_true_iff]
  refine ⟨And.right, fun hm => ⟨?_, hm⟩⟩
  obtain ⟨m, hmem, rfl⟩ := h.2.1 k hm
  exact List.mem_map_of_mem hmem

theorem pairwise_keys {out : List (Key × Value)}
    (h : ReadsMembers types s entries (.object out)) :
    (Entries.keys out).Pairwise fun j k =>
      ((types.members s).map fun m => Key.text m.name).idxOf j
        < ((types.members s).map fun m => Key.text m.name).idxOf k := by
  obtain ⟨_, he, hk⟩ := keys_of_readsMembers h
  cases he
  rw [hk]
  exact Entries.pairwise_eraseDups_filter

/-! ## Unknown keys -/

theorem unknownKey?_eq_some {members : List Member} {before after : List Key} {k : Key}
    (hb : Known (· ∈ members) before) (hk : ∀ m ∈ members, k ≠ .text m.name) :
    unknownKey? members (before ++ k :: after) = some k := by
  rw [unknownKey?, List.find?_eq_some_iff_append]
  refine ⟨by simpa using hk, before, after, rfl, ?_⟩
  intro k' hk'
  obtain ⟨m, hm, rfl⟩ := hb k' hk'
  simpa using ⟨m, hm, rfl⟩

/-- An object that suits the members is refused for a key that is not known, and for nothing
else. -/
theorem Suits.exists_asStruct_eq {ty : TypeRef} {path : Path}
    (h : Suits types s (· ∈ types.members s) entries path) :
    ∃ out, asStruct types s entries ty path
      = match unknownKey? (types.members s) (Entries.keys entries) with
        | none => .ok (.object out)
        | some k => .error (.unknownMember (path ++ [k.toText])) := by
  obtain ⟨ho, ws, hws⟩ := h.readings
  have hpresent : presentMembers s path (memberChecks types entries) (types.members s)
      = .ok (named ((present (types.members s) entries).map Prod.fst) ws) :=
    (presentMembers_eq_ok_iff fun _ _ _ _ _ => value_eq_ok_iff).2 ⟨ho, ws, hws, rfl⟩
  have hlength : (memberChecks types entries).length = entries.length := by
    rw [memberChecks_eq_map, List.length_map]
  have hunion : (s.union && entries.length != 1) = false := by
    cases hu : s.union with
    | false => rfl
    | true => simpa using h.single hu
  refine ⟨Entries.ofList (named ((present (types.members s) entries).map Prod.fst) ws), ?_⟩
  simp only [asStruct, struct, hlength, hunion, hpresent, keys_memberChecks, Bool.false_eq_true,
    if_false]
  show (if _ then _ else _) = _
  split
  · next hl =>
    -- as many members as entries leave no key over
    rw [unknownKey?_eq_none_iff.2 (known_of_length_eq hws.length_eq hl)]
    rfl
  · rfl

theorem asStruct_of_unknown {ty : TypeRef} {path : Path} {before after : List (Key × Value)}
    {k : Key} {v : Value}
    (hs : Suits types s (· ∈ types.members s) (before ++ (k, v) :: after) path)
    (hb : Known (· ∈ types.members s) (Entries.keys before))
    (hk : ∀ m ∈ types.members s, k ≠ .text m.name) :
    asStruct types s (before ++ (k, v) :: after) ty path
      = .error (.unknownMember (path ++ [k.toText])) := by
  have hkeys : Entries.keys (before ++ (k, v) :: after)
      = Entries.keys before ++ k :: Entries.keys after := by
    rw [Entries.keys, List.map_append]
    rfl
  obtain ⟨_, he⟩ := hs.exists_asStruct_eq
  rw [he, hkeys, unknownKey?_eq_some hb hk]

end Validate

/-- An object is accepted as a struct exactly if it suits the members that the struct lists and has
no other keys.  It comes out with its keys, in the order in which they first stand among the names
of these members, and when other keys are all that is wrong, the first of them is named.  What is
listed is own or inherited, and nothing of this is left out unless a base is met again. -/
theorem struct_exact (types : Types) (s : Struct) (entries : List (Key × Value)) (ty : TypeRef)
    (path : Path) :
    (∀ name, types.get? name = some (.struct s) →
        types.validate (.user name) (.object entries) path
          = Validate.asStruct types s entries (.user name) path)
      ∧ ((∃ w, Validate.asStruct types s entries ty path = .ok w)
        ↔ Validate.Suits types s (· ∈ types.members s) entries path
          ∧ Validate.Known (· ∈ types.members s) (Entries.keys entries))
      ∧ (∀ w, Validate.asStruct types s entries ty path = .ok w →
          ∃ out, w = .object out
            ∧ (∀ k, k ∈ Entries.keys out ↔ k ∈ Entries.keys entries)
            ∧ (Entries.keys out).Pairwise fun j k =>
                ((types.members s).map fun m => Key.text m.name).idxOf j
                  < ((types.members s).map fun m => Key.text m.name).idxOf k)
      ∧ (∀ before k v after, entries = before ++ (k, v) :: after →
          Validate.Suits types s (· ∈ types.members s) entries path →
          Validate.Known (· ∈ types.members s) (Entries.keys before) →
          (∀ m ∈ types.members s, k ≠ .text m.name) →
          Validate.asStruct types s entries ty path = .error (.unknownMember (path ++ [k.toText])))
      ∧ (∀ m ∈ types.members s, Struct.heritage.HasItem types s m)
      ∧ ((types.walk Struct.heritage s).repeats = false →
          ∀ m, Struct.heritage.HasItem types s m → m ∈ types.members s) := by
  refine ⟨fun name hd => Validate.value_object_of_struct hd path, Validate.exists_asStruct_iff,
    ?_, ?_, fun _ => Types.hasItem_of_mem_walk, fun hr _ => (Types.mem_walk_iff hr).2⟩
  · intro w h
    have hread := Validate.asStruct_eq_ok_iff.1 h
    obtain ⟨out, rfl, -⟩ := Validate.keys_of_readsMembers hread
    exact ⟨out, rfl, Validate.mem_keys_iff hread, Validate.pairwise_keys hread⟩
  · rintro before k v after rfl hs hb hk
    exact Validate.asStruct_of_unknown hs hb hk

/-- Books, whose number is defined twice, once as a member that may be left out. -/
def Types.books : Types :=
  .ofList
    [("Item", .struct
        { name := "Item"
          members := some
            [{ name := "title", type := .builtin .string },
              { name := "id", type := .builtin .int, optional := true }] })]

def Struct.book : Struct :=
  { name := "Book"
    bases := some ["Item"]
    members := some [{ name := "id", type := .builtin .int }] }

theorem struct_exact_books :
    Validate.Suits .books .book (· ∈ Types.books.members .book)
        [(.text "id", .string "7"), (.null, .int 1), (.text "title", .string "A"),
          (.text "year", .null)] []
      ∧ Validate.Known (· ∈ Types.books.members .book) [.text "id"]
      ∧ Validate.asStruct .books .book
          [(.text "id", .string "7"), (.null, .int 1), (.text "title", .string "A"),
            (.text "year", .null)] (.user "Book") []
        = .error (.unknownMember ["null"]) := by
  have hm : Types.books.members .book
      = [{ name := "title", type := .builtin .string },
          { name := "id", type := .builtin .int, optional := true },
          { name := "id", type := .builtin .int }] := by rfl
  have hf : Validate.Suits .books .book (· ∈ Types.books.members .book)
      [(.text "id", .string "7"), (.null, .int 1), (.text "title", .string "A"),
        (.text "year", .null)] [] := by
    refine ⟨by decide, ?_, ?_⟩ <;> rw [hm]
    · simp [Entries.keys]
    · simp only [List.mem_cons, List.not_mem_nil, or_false]
      rintro m (rfl | rfl | rfl) v hv <;> cases hv
      · exact ⟨.string "A", by cbv⟩
      · exact ⟨.int 7, by cbv⟩
      · exact ⟨.int 7, by cbv⟩
  have hk : Validate.Known (· ∈ Types.books.members .book) [.text "id"] := by
    intro k hk
    rw [List.mem_singleton.1 hk, hm]
    exact ⟨_, List.mem_cons_of_mem _ List.mem_cons_self, rfl⟩
  refine ⟨hf, hk, (struct_exact .books .book _ _ []).2.2.2.1 [(.text "id", .string "7")] .null _ _
    rfl hf hk ?_⟩
  simp

/-! ## Structs that inherit from themselves -/

/-- A struct that is its own base. -/
def Struct.ring : Struct :=
  { name := "Ring"
    bases := some ["Ring"]
    members := some [{ name := "a", type := .builtin .int }] }

def Types.ring : Types := .ofList [("Ring", .struct .ring)]

theorem mem_ring_of_hasItem {m : Member} (h : Struct.heritage.HasItem .ring .ring m) :
    m = { name := "a", type := .builtin .int } := by
  generalize hs : Struct.ring = s at h
  induction h with
  | own hm =>
    subst hs
    exact List.mem_singleton.1 hm
  | inherited hm hb _ ih =>
    subst hs
    rw [List.mem_singleton.1 hm] at hb
    exact ih (Option.some.inj hb)

/-- Where a base is met again, an object with all own and inherited members and no other key can be
refused: the walk breaks off before it comes to the own members. -/
theorem struct_ring_own_member :
    Validate.Suits .ring .ring (Struct.heritage.HasItem .ring .ring) [(.text "a", .int 1)] []
      ∧ Validate.Known (Struct.heritage.HasItem .ring .ring) [.text "a"]
      ∧ Validate.asStruct .ring .ring [(.text "a", .int 1)] (.user "Ring") []
        = .error (.unknownMember ["a"]) := by
  refine ⟨⟨by decide, ?_, ?_⟩, ?_, rfl⟩
  · intro _ m hm _
    rw [mem_ring_of_hasItem hm]
    exact List.mem_cons_self
  · intro m hm v hv
    rw [mem_ring_of_hasItem hm] at hv ⊢
    cases hv
    exact ⟨.int 1, by cbv⟩
  · intro k hk
    rw [List.mem_singleton.1 hk]
    exact ⟨_, .own List.mem_cons_self, rfl⟩

end SchemaLang
