import SchemaLang.Files.Tree
import SchemaLang.Proofs.Entries

/-!
# Ways through file trees

In a directory each name stands once, and it is neither empty nor one of those that every path
understands.  So the names on the way to a node lead to this node and to no other, and all ways down
from a directory can be listed.

* `Node.Formed`: the trees that there are.
* `Node.mem_ways_iff`, `Node.nodup_ways`: the ways down from a node, each of them once.
* `Node.namesFrom_names`: names on a way are looked up one after the other.
-/

namespace SchemaLang.Files

/-- What an entry of a directory may be called. -/
structure IsName (name : String) : Prop where
  nonempty : name ≠ ""
  notHere : name ≠ "."
  notUp : name ≠ ".."
  noSlash : '/' ∉ name.toList

instance (name : String) : Decidable (IsName name) :=
  decidable_of_iff (name ≠ "" ∧ name ≠ "." ∧ name ≠ ".." ∧ '/' ∉ name.toList)
    ⟨fun ⟨hne, hhere, hup, hslash⟩ => ⟨hne, hhere, hup, hslash⟩,
      fun ⟨hne, hhere, hup, hslash⟩ => ⟨hne, hhere, hup, hslash⟩⟩

namespace Node

inductive Formed : Node → Prop
  | file (content : List UInt8) : Formed (.file content)
  | directory {entries : List (String × Node)} (nodup : (Entries.keys entries).Nodup)
      (names : ∀ e ∈ entries, IsName e.1) (nodes : ∀ e ∈ entries, Formed e.2) :
      Formed (.directory entries)

/-! ## Going down -/

theorem descend_append (names others : List String) (node : Node) :
    node.descend (names ++ others) = (node.descend names).bind (descend others) := by
  induction names generalizing node with
  | nil => rfl
  | cons name names ih =>
    cases node with
    | file content => rfl
    | directory entries =>
      rw [List.cons_append, descend, descend]
      cases Entries.get? name entries with
      | none => rfl
      | some next => exact ih next

theorem Formed.names {node found : Node} {names : List String} (h : node.Formed)
    (hd : node.descend names = some found) : ∀ name ∈ names, IsName name := by
  induction names generalizing node with
  | nil => exact fun _ hn => absurd hn List.not_mem_nil
  | cons name names ih =>
    cases h with
    | file content => cases hd
    | directory nodup hnames hnodes =>
      rw [descend] at hd
      split at hd
      · next next hnext =>
        have hm := Entries.mem_of_get? hnext
        exact List.forall_mem_cons.2 ⟨hnames _ hm, ih (hnodes _ hm) hd⟩
      · cases hd

theorem Formed.descend {node found : Node} {names : List String} (h : node.Formed)
    (hd : node.descend names = some found) : found.Formed := by
  induction names generalizing node with
  | nil => exact Option.some.inj hd ▸ h
  | cons name names ih =>
    cases h with
    | file content => cases hd
    | directory nodup hnames hnodes =>
      rw [Node.descend] at hd
      split at hd
      · next next hnext => exact ih (hnodes _ (Entries.mem_of_get? hnext)) hd
      · cases hd

/-! ## All ways down -/

mutual

/-- The ways down from a node, each as the names on it. -/
def ways : Node → List (List String)
  | .file _ => []
  | .directory entries => waysOf entries

def waysOf : List (String × Node) → List (List String)
  | [] => []
  | (name, node) :: entries => [name] :: (node.ways.map (name :: ·) ++ waysOf entries)

end

theorem mem_waysOf_iff {entries : List (String × Node)} {way : List String} :
    way ∈ waysOf entries
      ↔ ∃ e ∈ entries, ∃ rest, way = e.1 :: rest ∧ (rest = [] ∨ rest ∈ e.2.ways) := by
  induction entries with
  | nil => simp [waysOf]
  | cons e entries ih =>
    obtain ⟨name, node⟩ := e
    rw [waysOf, List.mem_cons, List.mem_append, List.mem_map, ih]
    constructor
    · rintro (rfl | ⟨rest, hr, rfl⟩ | ⟨e, he, hw⟩)
      · exact ⟨_, List.mem_cons_self, [], rfl, .inl rfl⟩
      · exact ⟨_, List.mem_cons_self, rest, rfl, .inr hr⟩
      · exact ⟨e, List.mem_cons_of_mem _ he, hw⟩
    · rintro ⟨e, he, rest, rfl, hr⟩
      rcases List.mem_cons.1 he with rfl | he
      · rcases hr with rfl | hr
        · exact .inl rfl
        · exact .inr (.inl ⟨rest, hr, rfl⟩)
      · exact .inr (.inr ⟨e, he, rest, rfl, hr⟩)

theorem ne_nil_of_mem_ways {node : Node} {way : List String} (h : way ∈ node.ways) : way ≠ [] := by
  cases node with
  | file content => exact absurd h List.not_mem_nil
  | directory entries =>
    obtain ⟨e, -, rest, rfl, -⟩ := mem_waysOf_iff.1 h
    exact List.cons_ne_nil _ _

/-- The ways down are the lists of names that lead to something else. -/
theorem mem_ways_iff {node : Node} (h : node.Formed) {way : List String} :
    way ∈ node.ways ↔ way ≠ [] ∧ ∃ found, node.descend way = some found := by
  induction way generalizing node with
  | nil => exact ⟨fun hm => absurd rfl (ne_nil_of_mem_ways hm), fun hm => absurd rfl hm.1⟩
  | cons name rest ih =>
    cases h with
    | file content => simp [ways, descend]
    | @directory entries nodup hnames hnodes =>
      rw [ways, mem_waysOf_iff, descend]
      constructor
      · rintro ⟨⟨name, next⟩, he, rest, hw, hr⟩
        obtain ⟨rfl, rfl⟩ := List.cons.inj hw
        rw [Entries.get?_of_mem nodup he]
        refine ⟨List.cons_ne_nil _ _, ?_⟩
        rcases hr with rfl | hr
        · exact ⟨next, rfl⟩
        · exact ((ih (hnodes _ he)).1 hr).2
      · rintro ⟨-, found, hf⟩
        split at hf
        · next next hnext =>
          have he := Entries.mem_of_get? hnext
          refine ⟨_, he, rest, rfl, ?_⟩
          rw [ih (hnodes _ he)]
          exact or_iff_not_imp_left.2 fun hne => ⟨hne, found, hf⟩
        · cases hf

theorem nodup_waysOf {entries : List (String × Node)} (hn : (Entries.keys entries).Nodup)
    (hw : ∀ e ∈ entries, e.2.ways.Nodup) : (waysOf entries).Nodup := by
  induction entries with
  | nil => exact List.nodup_nil
  | cons e entries ih =>
    obtain ⟨name, node⟩ := e
    obtain ⟨hnot, hn⟩ := List.nodup_cons.1 hn
    obtain ⟨hnode, hw⟩ := List.forall_mem_cons.1 hw
    have hfirst : ∀ rest, name :: rest ∉ waysOf entries := by
      intro rest hm
      obtain ⟨e, he, _, hrest, -⟩ := mem_waysOf_iff.1 hm
      have hkey : e.1 ∈ Entries.keys entries := List.mem_map_of_mem he
      exact hnot (by rwa [(List.cons.inj hrest).1])
    rw [waysOf, List.nodup_cons, List.nodup_append]
    refine ⟨?_, hnode.map (List.cons_injective), ih hn hw, ?_⟩
    · rw [List.mem_append, not_or, List.mem_map]
      refine ⟨?_, hfirst []⟩
      rintro ⟨rest, hr, he⟩
      exact ne_nil_of_mem_ways hr (List.cons.inj he).2
    · rintro way hway other hother rfl
      obtain ⟨rest, -, rfl⟩ := List.mem_map.1 hway
      exact hfirst rest hother

theorem nodup_ways {node : Node} (h : node.Formed) : node.ways.Nodup := by
  induction h with
  | file content => exact List.nodup_nil
  | directory nodup names nodes ih => exact nodup_waysOf nodup ih

/-! ## Looking paths up -/

theorem namesFrom_append (root : Node) (names steps others : List String) :
    namesFrom root names (steps ++ others)
      = namesFrom root names steps >>= fun names => namesFrom root names others := by
  induction steps generalizing names with
  | nil => rfl
  | cons step steps ih =>
    rw [List.cons_append, namesFrom, namesFrom]
    split
    · split
      · exact ih names
      · split
        · exact ih names.dropLast
        · split
          · exact ih (names ++ [step])
          · rfl
    · rfl
    · rfl

/-- An empty component and a point stay in a directory. -/
theorem namesFrom_here {root : Node} {names : List String} {entries : List (String × Node)}
    (h : root.descend names = some (.directory entries)) {step : String}
    (hs : step = "" ∨ step = ".") (steps : List String) :
    namesFrom root names (step :: steps) = namesFrom root names steps := by
  rw [namesFrom, h]
  exact if_pos hs

/-- Only a directory can be gone on from. -/
theorem exists_directory_of_namesFrom {root : Node} {names found : List String} {step : String}
    {steps : List String} (h : namesFrom root names (step :: steps) = .ok found) :
    ∃ entries, root.descend names = some (.directory entries) := by
  rw [namesFrom] at h
  split at h
  · next entries he => exact ⟨entries, he⟩
  · cases h
  · cases h

/-- Names on a way are looked up one after the other. -/
theorem namesFrom_names {root here found : Node} {start names : List String}
    (hroot : root.descend start = some here) (hd : here.descend names = some found)
    (hn : ∀ name ∈ names, IsName name) : namesFrom root start names = .ok (start ++ names) := by
  induction names generalizing start here with
  | nil => rw [namesFrom, List.append_nil]
  | cons name names ih =>
    obtain ⟨hname, hn⟩ := List.forall_mem_cons.1 hn
    cases here with
    | file content => cases hd
    | directory entries =>
      rw [descend] at hd
      split at hd
      · next next hnext =>
        have hroot' : root.descend (start ++ [name]) = some next := by
          rw [descend_append, hroot, Option.bind_some, descend, hnext]
          rfl
        have hne : ¬(name = "" ∨ name = ".") := not_or.2 ⟨hname.nonempty, hname.notHere⟩
        rw [namesFrom, hroot]
        simp only [hne, hname.notUp, hnext, false_and, if_false, Option.isSome_some, if_true]
        rw [ih hroot' hd hn, List.append_assoc, List.singleton_append]
      · cases hd

end Node

end SchemaLang.Files
