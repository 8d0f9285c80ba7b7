import SchemaLang.Load
import SchemaLang.Proofs.Files.Glob
import SchemaLang.Proofs.Outcome

/-!
# Loading a directory

What is loaded from a directory is found by a search for names that end in the extension, at any
depth, and read in the order of the paths.  The search finds directories as well as files, and a
directory cannot be read, so that a directory with such a name ends the loading there just as a file
does that is no text.  A path that is written as the working directory with an empty component after
it, such as `./`, is searched for nothing.

* `Dangles`, `glob_schemaPattern`: what the search for the files of a directory finds.
* `Compilation.loadFiles_ways`: files are read up to the first entry that is no text.
* `Compilation.load_directory`: both together.
-/

namespace SchemaLang

open Files Node

namespace Files

/-! ## The search -/

/-- A path is written as the working directory with an empty component after it. -/
def Dangles (path : String) : Prop :=
  ∃ n after, components path = List.replicate (n + 1) "." ++ "" :: after

example : Dangles "./" := ⟨0, [], by decide⟩

/-- The path from which a search along a path starts, and the steps that it takes. -/
def searchSteps (path : String) : String × List String :=
  match path.toList with
  | '/' :: cs => ("/", components (String.ofList cs))
  | _ => (".", components path)

/-- The path by which a search along a path comes to its end: without the working directory. -/
def reached (path : String) : String := (searchSteps path).2.foldl joinPath (searchSteps path).1

variable {root : Node} {path : String} {names : List String} {entries : List (String × Node)}

theorem searchSteps_of_slash {cs : List Char} (h : path.toList = '/' :: cs) :
    searchSteps path = ("/", components (String.ofList cs))
      ∧ components path = "" :: components (String.ofList cs) := by
  rw [searchSteps, h]
  refine ⟨rfl, ?_⟩
  rw [components, h, Text.splitAt, if_pos rfl, components, String.toList_ofList, List.map_cons]

theorem searchSteps_of_not_slash (h : ∀ cs, path.toList ≠ '/' :: cs) :
    searchSteps path = (".", components path) := by
  rw [searchSteps]
  split
  · next cs hcs => exact absurd hcs (h cs)
  · rfl

/-- Only a path that is empty or starts with a slash has an empty first component. -/
theorem exists_slash_of_components {after : List String} (hne : path ≠ "")
    (h : components path = "" :: after) : ∃ cs, path.toList = '/' :: cs := by
  cases hpath : path.toList with
  | nil => exact absurd (String.toList_eq_nil_iff.1 hpath) hne
  | cons c cs =>
    obtain ⟨piece, pieces, hcut⟩ := List.exists_cons_of_ne_nil (Text.splitAt_ne_nil '/' cs)
    by_cases hc : c = '/'
    · exact ⟨cs, by rw [hc]⟩
    · rw [components, hpath, Text.splitAt, if_neg hc, hcut, List.map_cons] at h
      have hfirst := congrArg String.toList (List.cons.inj h).1
      rw [String.toList_ofList] at hfirst
      cases hfirst

theorem noSlash_searchSteps (path : String) : ∀ step ∈ (searchSteps path).2, '/' ∉ step.toList := by
  rw [searchSteps]
  split <;> exact noSlash_components _

/-- A search starts at the root, or in the working directory, which is the root as well. -/
theorem exists_leads_searchSteps (h : root.Leads path names (.directory entries)) :
    ∃ first, root.Leads (searchSteps path).1 [] (.directory first)
      ∧ namesFrom root [] (searchSteps path).2 = .ok names := by
  obtain ⟨step, steps, hsteps⟩ : ∃ step steps, components path = step :: steps :=
    List.exists_cons_of_ne_nil (by simp [components, Text.splitAt_ne_nil])
  have hnames := h.names_eq
  rw [hsteps] at hnames
  obtain ⟨first, hroot⟩ := exists_directory_of_namesFrom hnames
  rw [← hsteps] at hnames
  refine ⟨first, ?_⟩
  by_cases hslash : ∃ cs, path.toList = '/' :: cs
  · obtain ⟨cs, hcs⟩ := hslash
    obtain ⟨hsearch, hcomponents⟩ := searchSteps_of_slash hcs
    have hne : "/" ≠ "" := by decide
    have hstart : components "/" = ["", ""] := by decide
    rw [hcomponents, namesFrom_here hroot (.inl rfl)] at hnames
    rw [hsearch]
    refine ⟨⟨hne, ?_, hroot⟩, hnames⟩
    rw [hstart, namesFrom_here hroot (.inl rfl), namesFrom_here hroot (.inl rfl), namesFrom]
  · have hne : "." ≠ "" := by decide
    have hstart : components "." = ["."] := by decide
    rw [searchSteps_of_not_slash fun cs hcs => hslash ⟨cs, hcs⟩]
    refine ⟨⟨hne, ?_, hroot⟩, hnames⟩
    rw [hstart, namesFrom_here hroot (.inr rfl), namesFrom]

theorem vanishes_searchSteps_iff (h : path ≠ "") :
    Vanishes (searchSteps path).1 (searchSteps path).2 ↔ Dangles path := by
  by_cases hslash : ∃ cs, path.toList = '/' :: cs
  · obtain ⟨cs, hcs⟩ := hslash
    obtain ⟨hsearch, hcomponents⟩ := searchSteps_of_slash hcs
    have hne : "/" ≠ "." := by decide
    rw [hsearch, Dangles, hcomponents]
    refine iff_of_false (not_vanishes hne _) ?_
    rintro ⟨n, after, he⟩
    exact absurd (List.cons.inj he).1 (by decide)
  · rw [searchSteps_of_not_slash fun cs hcs => hslash ⟨cs, hcs⟩, vanishes_here_iff, Dangles]
    constructor
    · rintro ⟨n, after, he⟩
      cases n with
      | succ n => exact ⟨n, after, he⟩
      | zero => exact absurd (exists_slash_of_components h he) hslash
    · rintro ⟨n, after, he⟩
      exact ⟨n + 1, after, he⟩

/-! ## What the search finds -/

/-- The end of the pattern of the files of a directory. -/
def schemaEnding : List Char := "/**/*".toList ++ defaultExtension.toList

theorem parse_schemaEnding (count position : Nat) (start : Bool) (h : schemaEnding.length ≤ count) :
    ∃ p, Pattern.tokensFrom count position start schemaEnding = .ok p := by
  have hlength : schemaEnding.length = 9 := by decide
  obtain ⟨more, rfl⟩ := Nat.exists_eq_add_of_le (hlength ▸ h)
  rw [Nat.add_comm]
  exact ⟨_, rfl⟩

theorem mapM_parse_escape (pieces : List (List Char)) {rest : List (List Char)}
    {patterns : List Pattern} (h : rest.mapM Pattern.parse = .ok patterns) :
    (pieces.map Pattern.escape ++ rest).mapM Pattern.parse
      = .ok (pieces.map Pattern.ofText ++ patterns) := by
  induction pieces with
  | nil => exact h
  | cons piece pieces ih =>
    rw [List.map_cons, List.cons_append, List.mapM_cons, Pattern.parse_escape, ih]
    rfl

/-- The components of an escaped path, at any depth, and the end of a name. -/
theorem patterns_schemaEnding (cs : List Char) :
    (patternComponents (Pattern.escape cs ++ schemaEnding)).mapM Pattern.parse
      = .ok ((components (String.ofList cs)).map (Pattern.ofText ·.toList)
        ++ [[.anyDirectories], .anySequence :: Pattern.ofText defaultExtension.toList]) := by
  have hcut : Text.splitAt '/' (Pattern.escape cs ++ schemaEnding)
      = (Text.splitAt '/' cs).map Pattern.escape
        ++ ["**".toList, "*".toList ++ defaultExtension.toList] := by
    rw [← Pattern.splitAt_escape]
    exact Text.splitAt_append_cons _ _
  have hlast : ((Text.splitAt '/' cs).map Pattern.escape
      ++ ["**".toList, "*".toList ++ defaultExtension.toList]).getLast? ≠ some [] := by
    rw [List.getLast?_append]
    show some ("*".toList ++ defaultExtension.toList) ≠ some []
    decide
  have hsteps : (components (String.ofList cs)).map (Pattern.ofText ·.toList)
      = (Text.splitAt '/' cs).map Pattern.ofText := by
    rw [components, String.toList_ofList, List.map_map]
    simp
  rw [patternComponents, hcut]
  simp only [hlast, if_false]
  rw [hsteps]
  exact mapM_parse_escape _ rfl

theorem glob_slash {cs : List Char} {patterns : List Pattern}
    (hparse : ∃ p, Pattern.parse ('/' :: cs) = .ok p)
    (hpatterns : (patternComponents cs).mapM Pattern.parse = .ok patterns)
    (hlast : ('/' :: cs).getLast? ≠ some '/') :
    root.glob ('/' :: cs) = .ok (root.expand false patterns "/") := by
  obtain ⟨p, hp⟩ := hparse
  rw [glob, hp, hpatterns]
  exact congrArg Except.ok (if_neg hlast)

theorem glob_here {text : List Char} {patterns : List Pattern}
    (hplain : ∀ cs, text ≠ '/' :: cs) (hparse : ∃ p, Pattern.parse text = .ok p)
    (hpatterns : (patternComponents text).mapM Pattern.parse = .ok patterns)
    (hlast : text.getLast? ≠ some '/') :
    root.glob text = .ok (root.expand false patterns ".") := by
  obtain ⟨p, hp⟩ := hparse
  rw [glob.eq_2 root text hplain, hp, hpatterns]
  exact congrArg Except.ok (if_neg hlast)

/-- Escaping puts no slash in front. -/
theorem schemaEnding_ne_slash (hne : path ≠ "") (hplain : ∀ cs, path.toList ≠ '/' :: cs)
    (cs : List Char) : Pattern.escape path.toList ++ schemaEnding ≠ '/' :: cs := by
  cases hpath : path.toList with
  | nil => exact absurd (String.toList_eq_nil_iff.1 hpath) hne
  | cons c rest =>
    have hc : c ≠ '/' := fun he => hplain rest (by rw [hpath, he])
    rw [Pattern.escape_cons]
    split
    · simp
    · simp [hc]

/-- A directory is searched along its path, and then for names that end in the extension. -/
theorem glob_schemaPattern (hne : path ≠ "") :
    root.glob (schemaPattern path defaultExtension)
      = .ok (root.expand false ((searchSteps path).2.map (Pattern.ofText ·.toList)
        ++ [[.anyDirectories], .anySequence :: Pattern.ofText defaultExtension.toList])
        (searchSteps path).1) := by
  have htext : schemaPattern path defaultExtension
      = Pattern.escape path.toList ++ schemaEnding := by
    rw [schemaPattern, List.append_assoc, schemaEnding]
  have hparse := Pattern.parse_escape_append path.toList parse_schemaEnding
  have hlast : (Pattern.escape path.toList ++ schemaEnding).getLast? ≠ some '/' := by
    rw [List.getLast?_append]
    show some 'm' ≠ some '/'
    decide
  rw [htext]
  by_cases hslash : ∃ cs, path.toList = '/' :: cs
  · obtain ⟨cs, hcs⟩ := hslash
    have hfront : Pattern.escape path.toList ++ schemaEnding
        = '/' :: (Pattern.escape cs ++ schemaEnding) := by
      rw [hcs]
      rfl
    rw [hfront] at hparse hlast ⊢
    rw [(searchSteps_of_slash hcs).1]
    exact glob_slash hparse (patterns_schemaEnding cs) hlast
  · have hplain : ∀ cs, path.toList ≠ '/' :: cs := fun cs hcs => hslash ⟨cs, hcs⟩
    have hpatterns := patterns_schemaEnding path.toList
    rw [String.ofList_toList] at hpatterns
    rw [searchSteps_of_not_slash hplain]
    exact glob_here (schemaEnding_ne_slash hne hplain) hparse hpatterns hlast

/-- The ways down to what has the name of a schema file, in their order. -/
def schemaWays (entries : List (String × Node)) : List (List String) :=
  sortWays ((waysOf entries).filter fun way =>
    decide (defaultExtension.toList <:+ (way.getLast?.getD "").toList))

theorem mem_schemaWays_iff (hf : (directory entries).Formed) {way : List String} :
    way ∈ schemaWays entries ↔ ∃ name node, way.getLast? = some name
      ∧ defaultExtension.toList <:+ name.toList
      ∧ (directory entries).descend way = some node := by
  rw [schemaWays, mem_sortWays_iff, List.mem_filter, decide_eq_true_iff]
  have hways : way ∈ waysOf entries ↔ _ := mem_ways_iff hf
  rw [hways]
  constructor
  · rintro ⟨⟨hne, node, hnode⟩, hend⟩
    obtain ⟨name, hname⟩ := Option.isSome_iff_exists.1 (List.getLast?_isSome.2 hne)
    rw [hname] at hend
    exact ⟨name, node, hname, hend, hnode⟩
  · rintro ⟨name, node, hname, hend, hnode⟩
    rw [hname]
    refine ⟨⟨?_, node, hnode⟩, hend⟩
    rintro rfl
    cases hname

theorem schemaFiles_of_dangles (hroot : root.Formed)
    (h : root.lookup path = .ok (.directory entries)) (hd : Dangles path) :
    schemaFiles root path defaultExtension = .ok [] := by
  obtain ⟨names, hleads⟩ := exists_leads h
  obtain ⟨first, hstart, hsteps⟩ := exists_leads_searchSteps hleads
  have hv := (vanishes_searchSteps_iff hleads.nonempty).2 hd
  rw [schemaFiles, if_pos hleads.hasDirectory, glob_schemaPattern hleads.nonempty,
    expand_of_vanishes hroot hstart (noSlash_searchSteps path) hv hsteps hleads.descend_eq]
  exact congrArg Except.ok List.mergeSort_nil

theorem leads_reached (hroot : root.Formed) (h : root.lookup path = .ok (.directory entries))
    (hd : ¬Dangles path) :
    (∃ names, root.Leads (reached path) names (.directory entries))
      ∧ schemaFiles root path defaultExtension
        = .ok ((schemaWays entries).map (List.foldl joinPath (reached path))) := by
  obtain ⟨names, hleads⟩ := exists_leads h
  obtain ⟨first, hstart, hsteps⟩ := exists_leads_searchSteps hleads
  have hv := mt (vanishes_searchSteps_iff hleads.nonempty).1 hd
  obtain ⟨hreached, hexpand⟩ := expand_steps hroot hstart (noSlash_searchSteps path) hv hsteps
    hleads.descend_eq [[.anyDirectories], .anySequence :: Pattern.ofText defaultExtension.toList]
  refine ⟨⟨names, hreached⟩, ?_⟩
  have hformed : (directory entries).Formed := hroot.descend hleads.descend_eq
  rw [schemaFiles, if_pos hleads.hasDirectory, glob_schemaPattern hleads.nonempty, hexpand,
    expand_below hreached]
  refine congrArg Except.ok (sortPaths_ways _ fun way hway => ?_)
  have hmem : way ∈ (directory entries).ways := List.mem_of_mem_filter hway
  obtain ⟨-, node, hnode⟩ := (mem_ways_iff hformed).1 hmem
  exact hformed.names hnode

/-- The path under which what a way down from a directory leads to is loaded. -/
def pathBelow (directory : String) (way : List String) : String :=
  way.foldl joinPath (reached directory)

example : pathBelow "d" ["e", "a.scm"] = "d/e/a.scm" := by decide

theorem sortKey_reached (directory : String) : sortKey (reached directory) = sortKey directory := by
  rw [reached, sortKey_foldl (noSlash_searchSteps directory), sortKey_eq_flatMap directory]
  by_cases hslash : ∃ cs, directory.toList = '/' :: cs
  · obtain ⟨cs, hcs⟩ := hslash
    have hroot : sortKey "/" = [] := by decide
    have hempty : sortKey "" = [] := by decide
    rw [(searchSteps_of_slash hcs).1, (searchSteps_of_slash hcs).2, List.flatMap_cons, hempty,
      hroot]
  · have hpoint : sortKey "." = [] := by decide
    rw [searchSteps_of_not_slash fun cs hcs => hslash ⟨cs, hcs⟩, hpoint, List.nil_append]

/-! ## Reading what has been found -/

/-- A way down leads to a file that is a text. -/
def IsText (here : Node) (way : List String) (text : String) : Prop :=
  ∃ bytes, here.descend way = some (.file bytes) ∧ Text.ofBytes? bytes = some text

/-- How loading ends when these ways are left: neither a directory nor a file that is no text can be
read. -/
def EndsAt (here : Node) (directory : String) : List (List String) → Option LoadFailure → Prop
  | [], failure => failure = none
  | way :: _, failure =>
    (∃ entries, here.descend way = some (.directory entries)
      ∧ failure = some (.file (pathBelow directory way) .isDirectory))
    ∨ ∃ bytes, here.descend way = some (.file bytes) ∧ Text.ofBytes? bytes = none
      ∧ failure = some (.file (pathBelow directory way) .notText)

theorem readText_file {bytes : List UInt8} (h : root.lookup path = .ok (.file bytes)) :
    root.readText path = (Text.ofBytes? bytes).elim (.error .notText) .ok := by
  rw [readText, readBytes, h]
  rfl

theorem readText_directory (h : root.lookup path = .ok (.directory entries)) :
    root.readText path = .error .isDirectory := by
  rw [readText, readBytes, h]
  rfl

end Files

namespace Compilation

variable {root : Node} {directory : String} {entries : List (String × Node)}

/-- What is found is read in its order, up to the first entry that is no text. -/
theorem loadFiles_ways {here : Node} {ways : List (List String)}
    (hways : ∀ way ∈ ways, ∃ node, here.descend way = some node
      ∧ root.lookup (pathBelow directory way) = .ok node) (c : Compilation) :
    ∃ (texts : List (List String × String)) (rest : List (List String)),
      ways = texts.map Prod.fst ++ rest
      ∧ (∀ t ∈ texts, IsText here t.1 t.2)
      ∧ (c.loadFiles root (ways.map (pathBelow directory))).1
        = texts.foldl (fun c t => c.read (pathBelow directory t.1) t.2) c
      ∧ EndsAt here directory rest (c.loadFiles root (ways.map (pathBelow directory))).2 := by
  induction ways generalizing c with
  | nil => exact ⟨[], [], rfl, fun _ h => absurd h List.not_mem_nil, rfl, rfl⟩
  | cons way ways ih =>
    obtain ⟨⟨node, hnode, hlookup⟩, hways⟩ := List.forall_mem_cons.1 hways
    have hstop : ∀ error, root.readText (pathBelow directory way) = .error error →
        c.loadFiles root ((way :: ways).map (pathBelow directory))
          = (c, some (.file (pathBelow directory way) error)) := by
      intro error he
      rw [List.map_cons, loadFiles, he]
    cases node with
    | directory below =>
      rw [hstop _ (readText_directory hlookup)]
      refine ⟨[], way :: ways, rfl, fun _ h => absurd h List.not_mem_nil, rfl, ?_⟩
      exact .inl ⟨below, hnode, rfl⟩
    | file bytes =>
      have hread := readText_file hlookup
      cases htext : Text.ofBytes? bytes with
      | none =>
        rw [htext] at hread
        rw [hstop _ hread]
        refine ⟨[], way :: ways, rfl, fun _ h => absurd h List.not_mem_nil, rfl, ?_⟩
        exact .inr ⟨bytes, hnode, htext, rfl⟩
      | some text =>
        rw [htext] at hread
        obtain ⟨texts, rest, rfl, htexts, hfst, hsnd⟩ :=
          ih hways (c.read (pathBelow directory way) text)
        have hgo : c.loadFiles root
              ((way :: (texts.map Prod.fst ++ rest)).map (pathBelow directory))
            = (c.read (pathBelow directory way) text).loadFiles root
              ((texts.map Prod.fst ++ rest).map (pathBelow directory)) := by
          rw [List.map_cons, loadFiles, hread]
          rfl
        rw [hgo]
        refine ⟨(way, text) :: texts, rest, rfl, ?_, hfst, hsnd⟩
        exact List.forall_mem_cons.2 ⟨⟨bytes, hnode, htext⟩, htexts⟩

/-- Loading a directory reads what stands at any depth below it under a name that ends in the
extension, in the order of the components, each under a path of its own.  It ends before the first
entry that is a directory or a file that is no text, which it reports; what comes before has been
read, and nothing after it.  Under a path that dangles nothing is found. -/
theorem load_directory (hroot : root.Formed)
    (hdir : root.lookup directory = .ok (.directory entries)) (c : Compilation) :
    (Dangles directory → c.load root directory defaultExtension = (c, none))
      ∧ (¬Dangles directory → ∃ ways : List (List String), ways.Pairwise (· < ·)
        ∧ (∀ way, way ∈ ways ↔ ∃ name node, way.getLast? = some name
          ∧ defaultExtension.toList <:+ name.toList
          ∧ (Node.directory entries).descend way = some node)
        ∧ (∀ way ∈ ways, sortKey (pathBelow directory way) = sortKey directory ++ way
          ∧ ∃ node, (Node.directory entries).descend way = some node
            ∧ root.lookup (pathBelow directory way) = .ok node)
        ∧ ∃ (texts : List (List String × String)) (rest : List (List String)),
          ways = texts.map Prod.fst ++ rest
          ∧ (∀ t ∈ texts, IsText (.directory entries) t.1 t.2)
          ∧ (c.load root directory defaultExtension).1
            = texts.foldl (fun c t => c.read (pathBelow directory t.1) t.2) c
          ∧ EndsAt (.directory entries) directory rest
            (c.load root directory defaultExtension).2) := by
  refine ⟨fun hd => ?_, fun hd => ?_⟩
  · rw [load, schemaFiles_of_dangles hroot hdir hd]
    rfl
  · obtain ⟨⟨names, hleads⟩, hfiles⟩ := leads_reached hroot hdir hd
    have hformed : (Node.directory entries).Formed := hroot.descend hleads.descend_eq
    have hfound : ∀ way ∈ schemaWays entries, ∃ node,
        (Node.directory entries).descend way = some node
          ∧ root.lookup (pathBelow directory way) = .ok node := by
      intro way hway
      obtain ⟨-, node, -, -, hnode⟩ := (mem_schemaWays_iff hformed).1 hway
      exact ⟨node, hnode, (hleads.foldl hformed hnode).lookup⟩
    refine ⟨schemaWays entries, ?_, fun way => mem_schemaWays_iff hformed, fun way hway => ?_, ?_⟩
    · exact pairwise_sortWays ((nodup_ways hformed).filter _)
    · obtain ⟨node, hnode, hlookup⟩ := hfound way hway
      refine ⟨?_, node, hnode, hlookup⟩
      rw [pathBelow, sortKey_names (hformed.names hnode), sortKey_reached]
    · have hload : c.load root directory defaultExtension
          = c.loadFiles root ((schemaWays entries).map (pathBelow directory)) := by
        rw [load, hfiles]
        rfl
      rw [hload]
      exact loadFiles_ways hfound c

/-! ## A directory with the name of a schema file -/

/-- Two schema files, and between them a directory that has such a name. -/
def strayEntries : List (String × Node) :=
  [("a.scm", .file (Text.toBytes "struct A\n")), ("b.scm", .directory []),
    ("c.scm", .file (Text.toBytes "struct C\n"))]

def strayTree : Node := .directory [("d", .directory strayEntries)]

theorem formed_strayTree : strayTree.Formed := by
  have hempty : (Node.directory []).Formed :=
    .directory List.nodup_nil (fun _ h => absurd h List.not_mem_nil)
      fun _ h => absurd h List.not_mem_nil
  have hentries : (Node.directory strayEntries).Formed := by
    refine .directory (by decide) (by decide) ?_
    exact List.forall_mem_cons.2 ⟨.file _, List.forall_mem_cons.2 ⟨hempty,
      List.forall_mem_singleton.2 (.file _)⟩⟩
  exact .directory (by decide) (by decide) (List.forall_mem_singleton.2 hentries)

theorem not_dangles_d : ¬Dangles "d" := by
  have hd : components "d" = ["d"] := by decide
  rintro ⟨n, after, h⟩
  rw [hd] at h
  exact absurd (List.cons.inj h).1 (by decide)

theorem load_directory_stray :
    strayTree.Formed ∧ strayTree.lookup "d" = .ok (.directory strayEntries) ∧ ¬Dangles "d"
      ∧ ∃ ways : List (List String), ways.Pairwise (· < ·) ∧ ["b.scm"] ∈ ways
        ∧ ∃ (texts : List (List String × String)) (rest : List (List String)),
          ways = texts.map Prod.fst ++ rest
          ∧ (∀ t ∈ texts, IsText (.directory strayEntries) t.1 t.2)
          ∧ EndsAt (.directory strayEntries) "d" rest
            (Compilation.load strayTree "d" defaultExtension {}).2 := by
  have hlookup : strayTree.lookup "d" = .ok (.directory strayEntries) := rfl
  obtain ⟨ways, hsorted, hmem, -, texts, rest, hways, htexts, -, hend⟩ :=
    (load_directory formed_strayTree hlookup {}).2 not_dangles_d
  refine ⟨formed_strayTree, hlookup, not_dangles_d, ways, hsorted, ?_, texts, rest, hways, htexts,
    hend⟩
  exact (hmem ["b.scm"]).2 ⟨"b.scm", .directory [], rfl, by decide, rfl⟩

/-- All files of the directory are texts, and yet it cannot be loaded: the second file is not
reached. -/
theorem exists_unloaded :
    strayTree.Formed ∧ strayTree.lookup "d" = .ok (.directory strayEntries)
      ∧ (∀ e ∈ strayEntries, ∀ bytes, e.2 = .file bytes → (Text.ofBytes? bytes).isSome = true)
      ∧ (Compilation.load strayTree "d" defaultExtension {}).2
        = some (.file "d/b.scm" .isDirectory)
      ∧ (Compilation.load strayTree "d" defaultExtension {}).1.types.contains "C" = false := by
  have hlookup : strayTree.lookup "d" = .ok (.directory strayEntries) := rfl
  have hways : schemaWays strayEntries = [["a.scm"], ["b.scm"], ["c.scm"]] := by
    have hfilter : ((waysOf strayEntries).filter fun way =>
        decide (defaultExtension.toList <:+ (way.getLast?.getD "").toList))
        = [["a.scm"], ["b.scm"], ["c.scm"]] := by decide
    rw [schemaWays, hfilter, sortWays]
    exact List.mergeSort_of_pairwise (by decide)
  have hload : Compilation.load strayTree "d" defaultExtension {}
      = (Compilation.read "d/a.scm" "struct A\n" {}, some (.file "d/b.scm" .isDirectory)) := by
    have hfirst : strayTree.readText "d/a.scm" = .ok "struct A\n" := by
      have hfile : strayTree.lookup "d/a.scm" = .ok (.file (Text.toBytes "struct A\n")) := rfl
      rw [readText_file hfile, Text.ofBytes?_toBytes]
      rfl
    have hsecond : strayTree.readText "d/b.scm" = .error .isDirectory := rfl
    have hfiles := (leads_reached formed_strayTree hlookup not_dangles_d).2
    rw [hways] at hfiles
    rw [load, hfiles]
    show Compilation.loadFiles strayTree {} ["d/a.scm", "d/b.scm", "d/c.scm"] = _
    rw [loadFiles, hfirst]
    simp only
    rw [loadFiles, hsecond]
  refine ⟨formed_strayTree, hlookup, ?_, by rw [hload], ?_⟩
  · intro e he bytes hb
    simp only [strayEntries, List.mem_cons, List.not_mem_nil, or_false] at he
    rcases he with rfl | rfl | rfl
    · cases hb
      rw [Text.ofBytes?_toBytes]
      rfl
    · cases hb
    · cases hb
      rw [Text.ofBytes?_toBytes]
      rfl
  · rw [hload]
    decide +kernel

end Compilation

end SchemaLang
