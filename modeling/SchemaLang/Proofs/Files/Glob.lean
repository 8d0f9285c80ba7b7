import Mathlib.Data.List.Lex
import Mathlib.Data.String.Basic
import SchemaLang.Files.Glob
import SchemaLang.Proofs.Files.Pattern
import SchemaLang.Proofs.Files.Tree
import SchemaLang.Proofs.Outcome

/-!
# What a search finds

A component of a pattern that is the form of one text only is followed to the entry of this name,
so that a search goes along an escaped path just as the path is looked up.  There is one exception:
the working directory is left out of joined paths, and an empty component after it makes the empty
path, which leads nowhere.

* `Node.Leads`, `Node.Leads.foldl`: where paths lead, and what is joined to them.
* `Vanishes`, `vanishes_here_iff`: a path that becomes the empty path on the way.
* `Node.expand_steps`, `Node.expand_of_vanishes`: a search along the components of a path.
* `Node.expand_below`: what is found at any depth by the end of its name.
* `sortKey_joinPath`: what joined paths are ordered by.
-/

namespace SchemaLang.Files

/-! ## Joined paths -/

theorem components_name {name : String} (h : '/' ∉ name.toList) : components name = [name] := by
  rw [components, Text.splitAt_of_not_mem h, List.map_singleton, String.ofList_toList]

theorem noSlash_components (path : String) : ∀ step ∈ components path, '/' ∉ step.toList := by
  intro step hs
  obtain ⟨piece, hp, rfl⟩ := List.mem_map.1 hs
  rw [String.toList_ofList]
  exact Text.not_mem_of_mem_splitAt hp

theorem slash_mem_joinPath {path : String} (h : path ≠ ".") (name : String) :
    '/' ∈ (joinPath path name).toList := by
  rw [joinPath, if_neg h]
  split
  · next hlast =>
    rw [String.toList_append]
    exact List.mem_append_left _ (List.mem_of_getLast? hlast)
  · simp

/-- Only the working directory and an empty name make the empty path. -/
theorem eq_of_joinPath_eq_empty {path name : String} (h : joinPath path name = "") :
    path = "." ∧ name = "" := by
  by_cases hp : path = "."
  · rw [joinPath, if_pos hp] at h
    exact ⟨hp, h⟩
  · have hslash := slash_mem_joinPath hp name
    rw [h] at hslash
    exact absurd hslash List.not_mem_nil

theorem joinPath_ne_here {path : String} (h : path ≠ ".") (name : String) :
    joinPath path name ≠ "." := by
  intro he
  have hslash := slash_mem_joinPath h name
  rw [he] at hslash
  exact absurd hslash (by decide)

/-- A name becomes the last component: after the others, in place of an empty last one, or alone
in the working directory. -/
theorem components_joinPath {name : String} (hn : '/' ∉ name.toList) (path : String) :
    (path = "." ∧ components (joinPath path name) = [name])
      ∨ (∃ front, components path = front ++ [""]
        ∧ components (joinPath path name) = front ++ [name])
      ∨ components (joinPath path name) = components path ++ [name] := by
  have hlast : [name] = (Text.splitAt '/' name.toList).map String.ofList :=
    (components_name hn).symm
  rw [joinPath]
  split
  · next hp => exact .inl ⟨hp, components_name hn⟩
  · split
    · next hend =>
      obtain ⟨front, hfront⟩ := List.getLast?_eq_some_iff.1 hend
      refine .inr (.inl ⟨(Text.splitAt '/' front).map String.ofList, ?_, ?_⟩)
      · rw [components, hfront, Text.splitAt_append_cons, List.map_append]
        rfl
      · rw [components, String.toList_append, hfront, List.append_assoc, List.singleton_append,
          Text.splitAt_append_cons, List.map_append, hlast]
    · refine .inr (.inr ?_)
      have hslash : (path ++ "/" ++ name).toList = path.toList ++ '/' :: name.toList := by simp
      rw [components, hslash, Text.splitAt_append_cons, List.map_append, ← hlast, components]

/-! ## Where paths lead -/

namespace Node

/-- A path leads to a node, which stands under names from the root. -/
structure Leads (root : Node) (path : String) (names : List String) (found : Node) : Prop where
  nonempty : path ≠ ""
  names_eq : namesFrom root [] (components path) = .ok names
  descend_eq : root.descend names = some found

variable {root found : Node} {path : String} {names : List String}
variable {entries : List (String × Node)}

theorem Leads.lookup (h : root.Leads path names found) : root.lookup path = .ok found := by
  have hpath : path.isEmpty = false := by
    rw [String.isEmpty_eq_false_iff]
    exact h.nonempty
  rw [Node.lookup, hpath, if_neg Bool.false_ne_true, h.names_eq]
  simp only [bind, Except.bind, h.descend_eq]
  rfl

theorem Leads.hasDirectory (h : root.Leads path names (.directory entries)) :
    root.hasDirectory path = true := by
  rw [Node.hasDirectory, h.lookup]
  rfl

theorem exists_leads (h : root.lookup path = .ok found) : ∃ names, root.Leads path names found := by
  rw [lookup] at h
  by_cases hpath : path.isEmpty = true
  · rw [if_pos hpath] at h
    cases h
  · rw [if_neg hpath] at h
    cases hn : namesFrom root [] (components path) with
    | error e =>
      rw [hn] at h
      cases h
    | ok names =>
      rw [hn] at h
      refine ⟨names, fun he => hpath (by rw [he]; rfl), hn, ?_⟩
      cases hd : root.descend names with
      | none => simp [hd, bind, Except.bind] at h
      | some node =>
        simp only [hd, bind, Except.bind, pure, Except.pure, Except.ok.injEq] at h
        rw [h]

/-- Looking up goes on where it has got to. -/
theorem exists_of_namesFrom_append (steps others : List String) {result : List String}
    (h : namesFrom root names (steps ++ others) = .ok result) :
    ∃ between, namesFrom root names steps = .ok between
      ∧ namesFrom root between others = .ok result := by
  rw [namesFrom_append] at h
  exact bind_eq_ok_iff.1 h

theorem namesFrom_append_of_ok {steps others between : List String}
    (h : namesFrom root names steps = .ok between) :
    namesFrom root names (steps ++ others) = namesFrom root between others := by
  rw [namesFrom_append, h]
  rfl

/-- Where looking up ends in a directory, it has gone on from directories. -/
theorem exists_directory_of_ends {steps result : List String} {last : List (String × Node)}
    (h : namesFrom root names steps = .ok result)
    (hlast : root.descend result = some (.directory last)) :
    ∃ entries, root.descend names = some (.directory entries) := by
  cases steps with
  | nil =>
    rw [namesFrom] at h
    exact ⟨last, Except.ok.inj h ▸ hlast⟩
  | cons step steps => exact exists_directory_of_namesFrom h

/-- A name that is joined to a path is looked up where the path leads. -/
theorem Leads.join {name : String} {result : List String} {here : Node}
    (h : root.Leads path names here) (hn : '/' ∉ name.toList) (hne : joinPath path name ≠ "")
    (hs : namesFrom root names [name] = .ok result) (hf : root.descend result = some found) :
    root.Leads (joinPath path name) result found := by
  refine ⟨hne, ?_, hf⟩
  rcases components_joinPath hn path with ⟨rfl, hc⟩ | ⟨front, hpath, hc⟩ | hc
  · have hpoint : components "." = ["."] := by decide
    have hnames := h.names_eq
    rw [hpoint] at hnames
    obtain ⟨entries, hroot⟩ := exists_directory_of_namesFrom hnames
    rw [namesFrom_here hroot (.inr rfl), namesFrom] at hnames
    obtain rfl := Except.ok.inj hnames
    rw [hc]
    exact hs
  · have hnames := h.names_eq
    rw [hpath] at hnames
    obtain ⟨between, hfront, hlast⟩ := exists_of_namesFrom_append front [""] hnames
    obtain ⟨entries, hdir⟩ := exists_directory_of_namesFrom hlast
    rw [namesFrom_here hdir (.inl rfl), namesFrom] at hlast
    obtain rfl := Except.ok.inj hlast
    rw [hc, namesFrom_append_of_ok hfront]
    exact hs
  · rw [hc, namesFrom_append_of_ok h.names_eq]
    exact hs

/-- A way down that is joined to a path leads to the end of the way. -/
theorem Leads.foldl {way : List String} {here : Node} (h : root.Leads path names here)
    (hf : here.Formed) (hway : here.descend way = some found) :
    root.Leads (way.foldl joinPath path) (names ++ way) found := by
  induction way generalizing path names here with
  | nil => rwa [List.append_nil, ← Option.some.inj hway]
  | cons name way ih =>
    obtain ⟨next, hnext, hrest⟩ : ∃ next, here.descend [name] = some next
        ∧ next.descend way = some found :=
      Option.bind_eq_some_iff.1 (by rwa [← descend_append])
    have hname := hf.names hnext
    obtain ⟨hne, -, -, hslash⟩ := hname name List.mem_cons_self
    have hjoin : root.Leads (joinPath path name) (names ++ [name]) next := by
      refine h.join hslash (fun he => hne (eq_of_joinPath_eq_empty he).2) ?_ ?_
      · exact namesFrom_names h.descend_eq hnext hname
      · rw [descend_append, h.descend_eq, Option.bind_some, hnext]
    have hleads := ih hjoin (hf.descend hnext) hrest
    rwa [List.append_assoc, List.singleton_append] at hleads

/-! ## A search along a path -/

theorem expand_nil (root : Node) (path : String) : root.expand false [] path = [path] := by
  rw [expand]

/-- The entry of a name is the only one that has the form of the name. -/
theorem filter_accepts (hn : (Entries.keys entries).Nodup) {name : String}
    (hm : name ∈ Entries.keys entries) :
    (entries.filter fun e => (Pattern.ofText name.toList).accepts e.1.toList).map Prod.fst
      = [name] := by
  have hform : ∀ other : String,
      (Pattern.ofText name.toList).accepts other.toList = (other == name) := by
    intro other
    rw [Bool.eq_iff_iff, Pattern.accepts_ofText, String.toList_inj, beq_iff_eq]
  simp only [hform]
  calc (entries.filter fun e => e.1 == name).map Prod.fst
    _ = (Entries.keys entries).filter (· == name) := by
      rw [Entries.keys, List.filter_map]
      rfl
    _ = [name] := by rw [List.filter_beq, List.count_eq_one_of_mem hn hm, List.replicate_one]

/-- A step that is not empty or made of points is an entry. -/
theorem exists_entry_of_namesFrom {step : String} {result : List String}
    (hd : root.descend names = some (.directory entries))
    (hs : namesFrom root names [step] = .ok result)
    (hpoints : step ≠ "" ∧ step ≠ "." ∧ step ≠ "..") : step ∈ Entries.keys entries := by
  rw [namesFrom, hd] at hs
  simp only [hpoints.1, hpoints.2.1, hpoints.2.2, or_self, false_and, if_false] at hs
  split at hs
  · next hsome =>
    obtain ⟨node, hnode⟩ := Option.isSome_iff_exists.1 hsome
    exact List.mem_map_of_mem (Entries.mem_of_get? hnode)
  · cases hs

/-- A step of an escaped path is followed as it is looked up. -/
theorem expand_ofText (hroot : root.Formed) {step : String} {result : List String}
    (h : root.Leads path names (.directory entries)) (hn : '/' ∉ step.toList)
    (hne : joinPath path step ≠ "") (hs : namesFrom root names [step] = .ok result)
    (hf : root.descend result = some found) (rest : List Pattern) :
    root.expand false (Pattern.ofText step.toList :: rest) path
      = root.expand false rest (joinPath path step) := by
  rw [expand, Pattern.isRecursive_ofText]
  simp only [Bool.false_eq_true, if_false]
  have hnext := h.join hn hne hs hf
  cases hl : (Pattern.ofText step.toList).literal? with
  | some chars =>
    simp only [Pattern.eq_of_literal?_ofText hl, String.ofList_toList]
    refine if_pos ?_
    have hhas : root.has (joinPath path step) = true := by
      rw [has, hnext.lookup]
      rfl
    rw [h.hasDirectory, hhas]
    cases step == "." || step == ".." <;> rfl
  | none =>
    have hpoints : step ≠ "" ∧ step ≠ "." ∧ step ≠ ".." := by
      refine ⟨?_, ?_, ?_⟩ <;> rintro rfl <;> cases hl
    have hspecial : specialNames (Pattern.ofText step.toList) = [] := by
      rw [specialNames]
      split
      · simp [Pattern.accepts_ofText, String.toList_inj, hpoints.2.1.symm, hpoints.2.2.symm]
      · rfl
    have hentry := exists_entry_of_namesFrom h.descend_eq hs hpoints
    cases hroot.descend h.descend_eq with
    | directory nodup _ _ =>
      have hone := congrArg (List.map (joinPath path)) (filter_accepts nodup hentry)
      rw [List.map_map, List.map_singleton] at hone
      simp only [hspecial, ite_self, List.map_nil, List.append_nil, entriesAt, h.lookup]
      exact (congrArg (List.flatMap (root.expand false rest)) hone).trans (List.append_nil _)

/-! ## Paths that become empty -/

end Node

/-- Following the steps of a path makes the empty path. -/
def Vanishes (path : String) : List String → Prop
  | [] => False
  | step :: steps => joinPath path step = "" ∨ Vanishes (joinPath path step) steps

theorem not_vanishes {path : String} (h : path ≠ ".") (steps : List String) :
    ¬Vanishes path steps := by
  induction steps generalizing path with
  | nil => exact id
  | cons step steps ih =>
    exact not_or.2 ⟨fun he => h (eq_of_joinPath_eq_empty he).1, ih (joinPath_ne_here h step)⟩

/-- From the working directory, some points and then an empty step make the empty path. -/
theorem vanishes_here_iff {steps : List String} :
    Vanishes "." steps ↔ ∃ n after, steps = List.replicate n "." ++ "" :: after := by
  induction steps with
  | nil => simp [Vanishes]
  | cons step steps ih =>
    have hjoin : joinPath "." step = step := if_pos rfl
    rw [Vanishes, hjoin]
    by_cases hstep : step = "."
    · subst hstep
      rw [ih, or_iff_right (by decide)]
      constructor
      · rintro ⟨n, after, rfl⟩
        exact ⟨n + 1, after, rfl⟩
      · rintro ⟨n, after, h⟩
        cases n with
        | zero => exact absurd (List.cons.inj h).1 (by decide)
        | succ n => exact ⟨n, after, (List.cons.inj h).2⟩
    · rw [or_iff_left (not_vanishes hstep steps)]
      constructor
      · rintro rfl
        exact ⟨0, steps, rfl⟩
      · rintro ⟨n, after, h⟩
        cases n with
        | zero => exact (List.cons.inj h).1
        | succ n => exact absurd (List.cons.inj h).1 hstep

namespace Node

variable {root found : Node} {path : String} {names : List String}
variable {entries : List (String × Node)}

/-- A search goes along the steps of a path. -/
theorem expand_steps (hroot : root.Formed) {steps result : List String}
    {last : List (String × Node)} (h : root.Leads path names (.directory entries))
    (hn : ∀ step ∈ steps, '/' ∉ step.toList) (hv : ¬Vanishes path steps)
    (hs : namesFrom root names steps = .ok result)
    (hlast : root.descend result = some (.directory last)) (rest : List Pattern) :
    root.Leads (steps.foldl joinPath path) result (.directory last)
      ∧ root.expand false (steps.map (Pattern.ofText ·.toList) ++ rest) path
        = root.expand false rest (steps.foldl joinPath path) := by
  induction steps generalizing path names entries with
  | nil =>
    rw [namesFrom] at hs
    obtain rfl := Except.ok.inj hs
    have he : Node.directory entries = .directory last :=
      Option.some.inj (h.descend_eq.symm.trans hlast)
    exact ⟨he ▸ h, rfl⟩
  | cons step steps ih =>
    obtain ⟨hstep, hn⟩ := List.forall_mem_cons.1 hn
    obtain ⟨hne, hv⟩ := not_or.1 hv
    obtain ⟨between, hfirst, hs⟩ := exists_of_namesFrom_append [step] steps hs
    obtain ⟨next, hnext⟩ := exists_directory_of_ends hs hlast
    obtain ⟨hleads, hexpand⟩ := ih (h.join hstep hne hfirst hnext) hn hv hs
    refine ⟨hleads, ?_⟩
    rw [List.map_cons, List.cons_append, expand_ofText hroot h hstep hne hfirst hnext, hexpand]
    rfl

/-- Under the empty path nothing is found. -/
theorem expand_of_vanishes (hroot : root.Formed) {steps result : List String}
    {last : List (String × Node)} (h : root.Leads path names (.directory entries))
    (hn : ∀ step ∈ steps, '/' ∉ step.toList) (hv : Vanishes path steps)
    (hs : namesFrom root names steps = .ok result)
    (hlast : root.descend result = some (.directory last)) (rest : List Pattern) :
    root.expand false (steps.map (Pattern.ofText ·.toList) ++ rest) path = [] := by
  induction steps generalizing path names entries with
  | nil => exact hv.elim
  | cons step steps ih =>
    obtain ⟨hstep, hn⟩ := List.forall_mem_cons.1 hn
    rw [List.map_cons, List.cons_append]
    by_cases hne : joinPath path step = ""
    · obtain ⟨rfl, rfl⟩ := eq_of_joinPath_eq_empty hne
      have hhas : root.has "" = false := rfl
      rw [expand, Pattern.isRecursive_ofText]
      show (if (false && root.hasDirectory "." || !false && root.has "") = true then _ else []) = []
      rw [hhas]
      rfl
    · have hv := hv.resolve_left hne
      obtain ⟨between, hfirst, hs⟩ := exists_of_namesFrom_append [step] steps hs
      obtain ⟨next, hnext⟩ := exists_directory_of_ends hs hlast
      rw [expand_ofText hroot h hstep hne hfirst hnext]
      exact ih (h.join hstep hne hfirst hnext) hn hv hs

/-! ## A search at any depth -/

mutual

theorem descendants_ways (path : String) (node : Node) :
    (descendants path node).map (fun f => (f.path, f.name))
      = node.ways.map fun way => (way.foldl joinPath path, way.getLast?.getD "") := by
  cases node with
  | file content => rfl
  | directory entries => exact descendantsOf_ways path entries

theorem descendantsOf_ways (path : String) (entries : List (String × Node)) :
    (descendantsOf path entries).map (fun f => (f.path, f.name))
      = (waysOf entries).map fun way => (way.foldl joinPath path, way.getLast?.getD "") := by
  cases entries with
  | nil => rfl
  | cons e entries =>
    obtain ⟨name, node⟩ := e
    rw [descendantsOf, waysOf, List.map_cons, List.map_append, List.map_cons, List.map_append,
      List.map_map, descendants_ways (joinPath path name) node, descendantsOf_ways path entries]
    have hbelow : ∀ way ∈ node.ways,
        (way.foldl joinPath (joinPath path name), way.getLast?.getD "")
          = ((name :: way).foldl joinPath path, (name :: way).getLast?.getD "") := by
      intro way hw
      obtain ⟨last, hlast⟩ :=
        Option.isSome_iff_exists.1 (List.getLast?_isSome.2 (ne_nil_of_mem_ways hw))
      rw [List.getLast?_cons, hlast]
      rfl
    rw [List.map_congr_left hbelow]
    rfl

end

/-- What is found at any depth below a path by the end of its name. -/
theorem expand_below (h : root.Leads path names (.directory entries)) (ending : List Char) :
    root.expand false [[.anyDirectories], .anySequence :: Pattern.ofText ending] path
      = ((waysOf entries).filter fun way => decide (ending <:+ (way.getLast?.getD "").toList)).map
        (List.foldl joinPath path) := by
  have hplain : Pattern.isRecursive (.anySequence :: Pattern.ofText ending) = false := by
    have := Pattern.isRecursive_ofText ending
    simpa [Pattern.isRecursive] using this
  have haccepts : ∀ name : String,
      Pattern.accepts (.anySequence :: Pattern.ofText ending) name.toList
        = decide (ending <:+ name.toList) := by
    intro name
    rw [Bool.eq_iff_iff, Pattern.accepts_anySequence, decide_eq_true_iff]
  have hways := congrArg (fun l => (l.filter fun p : String × String =>
    decide (ending <:+ p.2.toList)).map Prod.fst) (descendantsOf_ways path entries)
  simp only [List.filter_map, List.map_map] at hways
  rw [expand, if_pos (by rfl), expand, hplain]
  simp only [Bool.false_eq_true, if_false, if_true, haccepts, expand_nil, inside, entriesAt,
    h.lookup]
  rw [← List.map_eq_flatMap]
  exact hways

end Node

/-! ## The order of paths -/

/-- Joined paths have their components one after the other. -/
theorem sortKey_joinPath {step : String} (hn : '/' ∉ step.toList) (path : String) :
    sortKey (joinPath path step) = sortKey path ++ sortKey step := by
  have hstep : sortKey step = (([step].filter fun c => c ≠ "" ∧ c ≠ ".").map
      fun c => if c = ".." then "" else c) := by
    rw [sortKey, components_name hn]
  rcases components_joinPath hn path with ⟨rfl, hc⟩ | ⟨front, hpath, hc⟩ | hc
  · have hpoint : sortKey "." = [] := by decide
    rw [sortKey, hc, hstep, hpoint, List.nil_append]
  · rw [sortKey, hc, hstep, sortKey, hpath]
    simp
  · rw [sortKey, hc, hstep, sortKey, List.filter_append, List.map_append]

theorem sortKey_foldl {steps : List String} (hn : ∀ step ∈ steps, '/' ∉ step.toList)
    (path : String) :
    sortKey (steps.foldl joinPath path) = sortKey path ++ steps.flatMap sortKey := by
  induction steps generalizing path with
  | nil => exact (List.append_nil _).symm
  | cons step steps ih =>
    obtain ⟨hstep, hn⟩ := List.forall_mem_cons.1 hn
    rw [List.foldl_cons, ih hn, sortKey_joinPath hstep, List.append_assoc, List.flatMap_cons]

theorem sortKey_eq_flatMap (path : String) : sortKey path = (components path).flatMap sortKey := by
  have hpieces : ∀ pieces : List String, (∀ piece ∈ pieces, '/' ∉ piece.toList) →
      ((pieces.filter fun c => c ≠ "" ∧ c ≠ ".").map fun c => if c = ".." then "" else c)
        = pieces.flatMap sortKey := by
    intro pieces hn
    induction pieces with
    | nil => rfl
    | cons piece pieces ih =>
      obtain ⟨hpiece, hn⟩ := List.forall_mem_cons.1 hn
      rw [List.flatMap_cons, ← ih hn, sortKey, components_name hpiece, ← List.map_append,
        ← List.filter_append, List.singleton_append]
  exact hpieces _ (noSlash_components path)

/-- A way down has the names on it as its components. -/
theorem sortKey_names {names : List String} (hn : ∀ name ∈ names, IsName name) (path : String) :
    sortKey (names.foldl joinPath path) = sortKey path ++ names := by
  have hname : ∀ name ∈ names, sortKey name = [name] := by
    intro name hm
    obtain ⟨hne, hhere, hup, hslash⟩ := hn name hm
    rw [sortKey, components_name hslash]
    simp [hne, hhere, hup]
  rw [sortKey_foldl (fun name hm => (hn name hm).noSlash), List.flatMap_congr hname,
    List.flatMap_singleton']

theorem append_lt_append_iff (front a b : List String) : front ++ a < front ++ b ↔ a < b := by
  induction front with
  | nil => rfl
  | cons name front ih =>
    rw [List.cons_append, List.cons_append, List.cons_lt_cons_iff, ih]
    simp

/-- Ways down in the order of their names. -/
def sortWays (ways : List (List String)) : List (List String) :=
  ways.mergeSort fun a b => !(decide (b < a))

theorem sortPaths_ways {ways : List (List String)} (path : String)
    (hn : ∀ way ∈ ways, ∀ name ∈ way, IsName name) :
    sortPaths (ways.map (List.foldl joinPath path))
      = (sortWays ways).map (List.foldl joinPath path) := by
  rw [sortPaths, sortWays, List.map_mergeSort]
  intro a ha b hb
  rw [pathLe, sortKey_names (hn a ha), sortKey_names (hn b hb)]
  simp only [append_lt_append_iff]

theorem mem_sortWays_iff {ways : List (List String)} {way : List String} :
    way ∈ sortWays ways ↔ way ∈ ways :=
  (List.mergeSort_perm _ _).mem_iff

theorem pairwise_sortWays {ways : List (List String)} (hn : ways.Nodup) :
    (sortWays ways).Pairwise (· < ·) := by
  have hperm := List.mergeSort_perm ways fun a b => !(decide (b < a))
  have hle : (sortWays ways).Pairwise fun a b => (!(decide (b < a))) = true := by
    refine List.pairwise_mergeSort (fun a b c hab hbc => ?_) (fun a b => ?_) ways
    · simp only [Bool.not_eq_true', decide_eq_false_iff_not, not_lt] at hab hbc ⊢
      exact hab.trans hbc
    · simp only [Bool.or_eq_true, Bool.not_eq_true', decide_eq_false_iff_not, not_lt]
      exact le_total a b
  refine (hle.and (hperm.nodup_iff.2 hn)).imp fun {a b} h => ?_
  have hab := h.1
  simp only [Bool.not_eq_true', decide_eq_false_iff_not, not_lt] at hab
  exact lt_of_le_of_ne hab h.2

end SchemaLang.Files
