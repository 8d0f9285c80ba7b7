import Mathlib.Data.List.Nodup
import SchemaLang.Proofs.Inheritance.Ways
import SchemaLang.Proofs.Model.Reach

/-!
# The tree of bases

Below a definition stand its bases, below these theirs, and so on.  Where no two ways end in one
name this is a finite tree, and the walk lists the items of its definitions in post-order: each
definition after its bases, the bases in their order.

The walk itself is said here a second time, with the record as it grows: nothing is entered twice,
and nothing else ends a walk early.

* `Heritage.visits_iff`: the walk with a growing record ends, and it lists what `Heritage.run` does.
* `Heritage.Unfolds.exists_tree`: what unfolds is a tree in post-order.
* `walk_exact`: what a walk comes to.
-/

namespace SchemaLang

/-- The bases of a definition, the bases of these, and so on. -/
inductive BaseTree (δ : Type)
  | node (definition : δ) (bases : List (BaseTree δ))

namespace BaseTree

variable {δ : Type}

def root : BaseTree δ → δ
  | node d _ => d

mutual

/-- The definitions of a tree, each after its bases. -/
def postorder : BaseTree δ → List δ
  | node d trees => postorders trees ++ [d]

def postorders : List (BaseTree δ) → List δ
  | [] => []
  | tree :: trees => postorder tree ++ postorders trees

end

theorem postorders_eq_flatMap (trees : List (BaseTree δ)) :
    postorders trees = trees.flatMap postorder := by
  induction trees with
  | nil => rfl
  | cons tree trees ih => rw [postorders, ih, List.flatMap_cons]

end BaseTree

namespace Heritage

variable {δ α : Type} {h : Heritage δ α} {types : Types}

/-! ## The walk with a growing record -/

/-- Tasks are done in order, with the names entered so far on record. -/
inductive Visits (h : Heritage δ α) (types : Types) : List String → List (Task δ) → Walk α → Prop
  | done {seen : List String} : Visits h types seen [] ⟨[], false⟩
  | list {seen : List String} {d : δ} {rest : List (Task δ)} {walk : Walk α}
      (hr : Visits h types seen rest walk) :
      Visits h types seen (.list d :: rest) ⟨h.items d ++ walk.items, walk.repeats⟩
  | pass {seen : List String} {base : String} {rest : List (Task δ)} {walk : Walk α}
      (hb : h.base? types base = none) (hr : Visits h types seen rest walk) :
      Visits h types seen (.enter base :: rest) walk
  | again {seen : List String} {base : String} {b : δ} {rest : List (Task δ)}
      (hb : h.base? types base = some b) (hm : h.name b ∈ seen) :
      Visits h types seen (.enter base :: rest) ⟨[], true⟩
  | enter {seen : List String} {base : String} {b : δ} {rest : List (Task δ)} {walk : Walk α}
      (hb : h.base? types base = some b) (hm : h.name b ∉ seen)
      (hr : Visits h types (h.name b :: seen) (h.tasks b ++ rest) walk) :
      Visits h types seen (.enter base :: rest) walk

/-- The records are of the names that definitions give themselves. -/
theorem visits_iff (hn : h.Named) {seen unseen : List String} {tasks : List (Task δ)} {w : Walk α}
    (ho : OppositeRecords types.ownNames unseen seen) :
    h.Visits types seen tasks w ↔ w = h.run types unseen tasks := by
  induction unseen, tasks using run_induct h types generalizing seen w with
  | nil unseen =>
    rw [run_nil]
    constructor
    · rintro ⟨⟩
      rfl
    · rintro rfl
      exact .done
  | list unseen d rest ih =>
    rw [run_list]
    constructor
    · rintro (_ | hr)
      rw [(ih ho).1 hr]
    · rintro rfl
      exact .list ((ih ho).2 rfl)
  | none unseen base rest hb ih =>
    rw [run_enter_none hb, ← ih ho]
    constructor
    · intro hv
      cases hv with
      | pass _ hr => exact hr
      | again hb' _ => simp [hb] at hb'
      | enter hb' _ _ => simp [hb] at hb'
    · exact .pass hb
  | seen unseen base rest b hb hm =>
    have hseen : h.name b ∈ seen := ho.mem_seen (name_mem_ownNames hn hb) hm
    rw [run_enter_seen hb hm]
    constructor
    · intro hv
      cases hv with
      | pass hb' _ => simp [hb] at hb'
      | again _ _ => rfl
      | enter hb' hm' _ =>
        cases hb.symm.trans hb'
        exact absurd hseen hm'
    · rintro rfl
      exact .again hb hseen
  | enter unseen base rest b hb hm ih =>
    have hseen : h.name b ∉ seen := (ho.mem_iff _ (name_mem_ownNames hn hb)).1 hm
    rw [run_enter hb hm, ← ih (ho.enter _)]
    constructor
    · intro hv
      cases hv with
      | pass hb' _ => simp [hb] at hb'
      | again hb' hm' =>
        cases hb.symm.trans hb'
        exact absurd hm' hseen
      | enter hb' _ hr =>
        cases hb.symm.trans hb'
        exact hr
    · exact .enter hb hseen

/-! ## Trees -/

/-- At each definition of a tree stand the trees of its bases, in their order. -/
inductive IsTree (h : Heritage δ α) (types : Types) : BaseTree δ → Prop
  | node {d : δ} {trees : List (BaseTree δ)}
      (hr : trees.map BaseTree.root = (h.bases d).filterMap (h.base? types))
      (ht : ∀ t ∈ trees, IsTree h types t) : IsTree h types (.node d trees)

/-- Below a definition stand its bases. -/
theorem exists_base_of_mem {d : δ} {trees : List (BaseTree δ)} {t : BaseTree δ}
    (hr : trees.map BaseTree.root = (h.bases d).filterMap (h.base? types)) (hm : t ∈ trees) :
    ∃ (i : Nat) (base : String), (h.bases d)[i]? = some base
      ∧ h.base? types base = some t.root := by
  have hroot : t.root ∈ (h.bases d).filterMap (h.base? types) :=
    hr ▸ List.mem_map_of_mem (f := BaseTree.root) hm
  obtain ⟨base, hbase, hb⟩ := List.mem_filterMap.1 hroot
  obtain ⟨i, hi⟩ := List.mem_iff_getElem?.1 hbase
  exact ⟨i, base, hi, hb⟩

/-- Every definition of a tree lies at the end of a way from its root. -/
theorem IsTree.exists_way {tree : BaseTree δ} (ht : h.IsTree types tree) {e : δ}
    (he : e ∈ tree.postorder) : ∃ way, h.Way types tree.root way e := by
  induction ht with
  | @node d trees hr ht ih =>
    rw [BaseTree.postorder, List.mem_append, List.mem_singleton,
      BaseTree.postorders_eq_flatMap, List.mem_flatMap] at he
    rcases he with ⟨t, hm, he⟩ | rfl
    · obtain ⟨i, base, hi, hb⟩ := exists_base_of_mem hr hm
      obtain ⟨way, hw⟩ := ih t hm he
      exact ⟨i :: way, .base hi hb hw⟩
    · exact ⟨[], .here⟩

/-- A definition below another one is reached in at least one step. -/
theorem IsTree.exists_way_of_mem {d e : δ} {trees : List (BaseTree δ)}
    (ht : h.IsTree types (.node d trees)) (he : e ∈ BaseTree.postorders trees) :
    ∃ way, way ≠ [] ∧ h.Way types d way e := by
  cases ht with
  | node hr ht =>
    rw [BaseTree.postorders_eq_flatMap, List.mem_flatMap] at he
    obtain ⟨t, hm, he⟩ := he
    obtain ⟨i, base, hi, hb⟩ := exists_base_of_mem hr hm
    obtain ⟨way, hw⟩ := (ht t hm).exists_way he
    exact ⟨i :: way, by simp, .base hi hb hw⟩

/-- Names that are entered and items that are listed are those of trees. -/
structure Lists (h : Heritage δ α) (trees : List (BaseTree δ)) (bases : List String)
    (items : List α) : Prop where
  bases : bases.Perm ((BaseTree.postorders trees).map h.name)
  items : items = (BaseTree.postorders trees).flatMap h.items

theorem Lists.cons {b : δ} {under trees : List (BaseTree δ)} {bases bases' : List String}
    {items items' : List α} (hu : h.Lists under bases items) (ht : h.Lists trees bases' items') :
    h.Lists (.node b under :: trees) (h.name b :: (bases ++ bases'))
      (items ++ h.items b ++ items') where
  bases := by
    simp only [BaseTree.postorders, BaseTree.postorder, List.map_append, List.map_cons,
      List.append_assoc, List.singleton_append]
    exact (((hu.bases.append ht.bases).cons _).trans List.perm_middle.symm)
  items := by
    simp [BaseTree.postorders, BaseTree.postorder, hu.items, ht.items]

/-- The bases of a definition unfold to trees, one after the other, if what is shorter unfolds to a
tree. -/
theorem Unfolds.exists_trees {n : Nat}
    (ih : ∀ {b bases items}, bases.length < n → h.Unfolds types (h.tasks b) bases items →
      ∃ under inner, h.IsTree types (.node b under) ∧ h.Lists under bases inner
        ∧ items = inner ++ h.items b)
    {d : δ} {names bases : List String} {items : List α} (hl : bases.length ≤ n)
    (hu : h.Unfolds types (names.map .enter ++ [.list d]) bases items) :
    ∃ trees inner, trees.map BaseTree.root = names.filterMap (h.base? types)
      ∧ (∀ t ∈ trees, h.IsTree types t) ∧ h.Lists trees bases inner
      ∧ items = inner ++ h.items d := by
  induction names generalizing bases items with
  | nil =>
    cases hu with
    | list hr =>
      cases hr
      exact ⟨[], [], rfl, by simp, ⟨.refl _, rfl⟩, by simp⟩
  | cons base names ihn =>
    rw [List.map_cons, List.cons_append] at hu
    cases hu with
    | pass hb hr =>
      rw [List.filterMap_cons_none hb]
      exact ihn hl hr
    | @enter _ b _ _ _ hb hr =>
      obtain ⟨bases₁, items₁, bases₂, items₂, hu₁, hu₂, rfl, rfl⟩ := hr.of_append
      rw [List.length_cons, List.length_append] at hl
      obtain ⟨under, inner, htree, hlists, rfl⟩ := ih (by omega) hu₁
      obtain ⟨trees, inner', hroots, htrees, hlists', rfl⟩ := ihn (by omega) hu₂
      refine ⟨.node b under :: trees, inner ++ h.items b ++ inner', ?_, ?_, hlists.cons hlists', ?_⟩
      · rw [List.filterMap_cons_some hb, List.map_cons, hroots, BaseTree.root]
      · exact List.forall_mem_cons.2 ⟨htree, htrees⟩
      · rw [List.append_assoc _ inner']

theorem Unfolds.exists_tree {d : δ} {bases : List String} {items : List α}
    (hu : h.Unfolds types (h.tasks d) bases items) :
    ∃ trees inner, h.IsTree types (.node d trees) ∧ h.Lists trees bases inner
      ∧ items = inner ++ h.items d := by
  generalize hn : bases.length = n
  induction n using Nat.strongRecOn generalizing d bases items with
  | _ n ih =>
    obtain ⟨trees, inner, hroots, htrees, hlists, hitems⟩ :=
      exists_trees (fun hl hu => ih _ hl hu rfl) (Nat.le_of_eq hn) hu
    exact ⟨trees, inner, .node hroots htrees, hlists, hitems⟩

/-! ## What a walk comes to -/

/-- What has to be true of the walk from a definition. -/
structure Exact (h : Heritage δ α) (types : Types) (d : δ) (walk : Walk α) : Prop where
  /-- Done with a growing record, which is empty at first, the walk ends, and in one way. -/
  ends : ∀ w, h.Visits types [] (h.tasks d) w ↔ w = walk
  /-- A base is met again exactly if two different ways to bases end in definitions of one name. -/
  repeats : walk.repeats = true ↔ ∃ way way' e e', way ≠ [] ∧ way' ≠ [] ∧ way ≠ way'
    ∧ h.Way types d way e ∧ h.Way types d way' e' ∧ h.name e = h.name e'
  /-- This is so when a definition that is its own base can be reached. -/
  cycle : ∀ way e round, h.Way types d way e → h.Way types e round e → round ≠ [] →
    walk.repeats = true
  /-- Otherwise the definitions of the tree of bases list their items in post-order, and each of
  them stands in it once, those below the root under names of their own. -/
  items : walk.repeats = false → ∃ trees, h.IsTree types (.node d trees)
    ∧ walk.items = (BaseTree.node d trees).postorder.flatMap h.items
    ∧ (BaseTree.node d trees).postorder.Nodup ∧ ((BaseTree.postorders trees).map h.name).Nodup

theorem exact_walk (hn : h.Named) (d : δ) : h.Exact types d (types.walk h d) where
  ends _ := visits_iff hn (.start (nodup_eraseDups _))
  repeats := Types.walk_repeats_iff hn
  cycle _ _ _ hw hr hne := Types.walk_repeats_of_cycle hn hw hr hne
  items hr := by
    obtain ⟨bases, hu, hnodup, -⟩ := unfolds_of_run (nodup_eraseDups _) hr
    obtain ⟨trees, inner, htree, hlists, hitems⟩ := hu.exists_tree
    have hnames : ((BaseTree.postorders trees).map h.name).Nodup := hlists.bases.nodup_iff.1 hnodup
    refine ⟨trees, htree, ?_, ?_, hnames⟩
    · have hwalk : (types.walk h d).items = inner ++ h.items d := hitems
      rw [hwalk, hlists.items, BaseTree.postorder, List.flatMap_append, List.flatMap_singleton]
    · rw [BaseTree.postorder, List.nodup_append]
      refine ⟨.of_map h.name hnames, List.nodup_singleton d, ?_⟩
      rintro e he _ hd rfl
      -- the definition itself is not below itself, or it would be met again
      obtain ⟨way, hne, hw⟩ := htree.exists_way_of_mem he
      rw [List.mem_singleton.1 hd] at hw
      rw [Types.walk_repeats_of_cycle hn .here hw hne] at hr
      simp at hr

end Heritage

/-- Walks along the bases of structs and enums, whatever the model: they end, they meet a base
again exactly where two ways come to one name, and otherwise they list the tree of bases in
post-order. -/
theorem walk_exact (types : Types) :
    (∀ s : Struct, Struct.heritage.Exact types s (types.walk Struct.heritage s))
      ∧ ∀ e : Enum, Enum.heritage.Exact types e (types.walk Enum.heritage e) :=
  ⟨fun s => Heritage.exact_walk Heritage.named_struct s,
    fun e => Heritage.exact_walk Heritage.named_enum e⟩

end SchemaLang
