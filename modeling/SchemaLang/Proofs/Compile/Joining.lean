import SchemaLang.Proofs.Compile

/-!
# How lines are joined

A line that is continued is kept back, and the first line after it that is not takes what has been
kept back in front of it.  An input is read with one empty line after it, which is not continued, so
that nothing is kept back in the end, and its lines fall into runs in one way only: each up to its
first line that is not continued.

* `Source.Joins`: what a run of lines is joined to.
* `Source.logicalLines_grouped`: the logical lines are the runs, in order.
* `Compilation.Reading.next`: the lines of an input, one by one, with what is kept back.
* `Compilation.readLines_joined`: an input is read run by run, and nothing of it is left out.
-/

namespace SchemaLang

namespace Source

/-! ## Runs -/

/-- A line ends in a backslash, white space apart, and `part` is what stands before it. -/
def Continues (line part : List Char) : Prop :=
  ∃ space, (∀ c ∈ space, Text.isSpace c = true) ∧ line = part ++ '\\' :: space

/-- A run of lines is joined to a text: all but its last line are continued, and of these the parts
before their backslashes are taken. -/
inductive Joins : List (List Char) → List Char → Prop
  | last {line : List Char} (h : ∀ part, ¬Continues line part) : Joins [line] line
  | more {line part text : List Char} {lines : List (List Char)} (h : Continues line part)
      (hrest : Joins lines text) : Joins (line :: lines) (part ++ text)

/-- Lines in runs, each with the text that it is joined to. -/
structure Grouped (lines : List (List Char)) (runs : List (List (List Char) × List Char)) :
    Prop where
  flatten : (runs.map Prod.fst).flatten = lines
  joins : ∀ run ∈ runs, Joins run.1 run.2

/-- The texts of runs under `n` lines, each with the number of the last line of its run. -/
def numbered (n : Nat) : List (List (List Char) × List Char) → List (Nat × List Char)
  | [] => []
  | (lines, text) :: runs => (n + lines.length, text) :: numbered (n + lines.length) runs

theorem continued?_eq_some_iff {line part : List Char} :
    continued? line = some part ↔ Continues line part := by
  have hsplit : line = (Text.trimEnd line) ++ (line.reverse.takeWhile Text.isSpace).reverse := by
    rw [Text.trimEnd, ← List.reverse_append, List.takeWhile_append_dropWhile, List.reverse_reverse]
  have hspace : ∀ c ∈ (line.reverse.takeWhile Text.isSpace).reverse, Text.isSpace c = true :=
    fun c hc => List.mem_takeWhile_imp (List.mem_reverse.1 hc)
  constructor
  · intro h
    rw [continued?] at h
    split at h
    · next rest hrest =>
      obtain rfl := Option.some.inj h
      refine ⟨_, hspace, ?_⟩
      rw [List.reverse_eq_iff.1 hrest, List.reverse_cons, List.append_assoc] at hsplit
      exact hsplit
    · simp at h
  · rintro ⟨space, hs, rfl⟩
    have htrim : (Text.trimEnd (part ++ '\\' :: space)).reverse = '\\' :: part.reverse := by
      have hall : ∀ c ∈ space.reverse, Text.isSpace c = true :=
        fun c hc => hs c (List.mem_reverse.1 hc)
      rw [Text.trimEnd, List.reverse_reverse, List.reverse_append, List.reverse_cons,
        List.append_assoc, List.dropWhile_append_of_pos hall]
      rfl
    rw [continued?, htrim]
    simp

theorem continued?_eq_none_iff {line : List Char} :
    continued? line = none ↔ ∀ part, ¬Continues line part := by
  simp only [Option.eq_none_iff_forall_ne_some, ne_eq, continued?_eq_some_iff]

theorem Continues.unique {line part other : List Char} (h : Continues line part)
    (ho : Continues line other) : part = other :=
  Option.some.inj ((continued?_eq_some_iff.2 h).symm.trans (continued?_eq_some_iff.2 ho))

/-- Where a run ends is seen from its lines. -/
theorem Joins.unique {run other rest rest' : List (List Char)} {text text' : List Char}
    (h : Joins run text) (ho : Joins other text') (he : run ++ rest = other ++ rest') :
    run = other ∧ text = text' ∧ rest = rest' := by
  induction h generalizing other text' with
  | last h =>
    cases ho with
    | last _ => simpa using he
    | more ho _ =>
      obtain ⟨rfl, -⟩ := List.cons.inj he
      exact absurd ho (h _)
  | more h _ ih =>
    cases ho with
    | last ho =>
      obtain ⟨rfl, -⟩ := List.cons.inj he
      exact absurd h (ho _)
    | more ho hrest =>
      obtain ⟨rfl, htail⟩ := List.cons.inj he
      obtain ⟨rfl, rfl, rfl⟩ := ih hrest htail
      exact ⟨rfl, by rw [h.unique ho], rfl⟩

theorem Joins.ne_nil {run : List (List Char)} {text : List Char} (h : Joins run text) :
    run ≠ [] := by
  cases h <;> exact List.cons_ne_nil _ _

/-- There is one way to group lines. -/
theorem Grouped.unique {lines : List (List Char)} {runs other : List (List (List Char) × List Char)}
    (h : Grouped lines runs) (ho : Grouped lines other) : other = runs := by
  induction runs generalizing lines other with
  | nil =>
    obtain ⟨rfl, -⟩ := h
    cases other with
    | nil => rfl
    | cons run other =>
      have hne := (ho.joins run List.mem_cons_self).ne_nil
      have hnil := ho.flatten
      simp [hne] at hnil
  | cons run runs ih =>
    obtain ⟨rfl, hjoins⟩ := h
    obtain ⟨hrun, hrest⟩ := List.forall_mem_cons.1 hjoins
    cases other with
    | nil =>
      have hnil := ho.flatten
      simp [hrun.ne_nil] at hnil
    | cons run' other =>
      obtain ⟨hrun', hrest'⟩ := List.forall_mem_cons.1 ho.joins
      obtain ⟨hl, ht, he⟩ := hrun'.unique hrun ho.flatten
      rw [ih ⟨rfl, hrest⟩ ⟨he, hrest'⟩, Prod.ext hl ht]

/-- Lines the last of which is not continued fall into runs, and the first run takes what is
pending. -/
theorem exists_grouped {last : List Char} (hlast : continued? last = none)
    (lines : List (List Char)) : ∃ run text rest, Grouped (lines ++ [last]) ((run, text) :: rest)
      ∧ ∀ n pending, joinFrom (n + 1) pending (lines ++ [last])
        = (n + run.length, pending ++ text) :: numbered (n + run.length) rest := by
  induction lines with
  | nil =>
    refine ⟨[last], last, [], ⟨rfl, ?_⟩, fun n pending => ?_⟩
    · simpa using Joins.last (continued?_eq_none_iff.1 hlast)
    · simp [joinFrom, hlast, numbered]
  | cons line lines ih =>
    obtain ⟨run, text, rest, ⟨hflatten, hjoins⟩, hjoin⟩ := ih
    obtain ⟨hrun, hrest⟩ := List.forall_mem_cons.1 hjoins
    cases hc : continued? line with
    | some part =>
      have hcont := continued?_eq_some_iff.1 hc
      refine ⟨line :: run, part ++ text, rest, ⟨?_, ?_⟩, fun n pending => ?_⟩
      · rw [List.cons_append, ← hflatten]
        rfl
      · exact List.forall_mem_cons.2 ⟨.more hcont hrun, hrest⟩
      · rw [List.cons_append, joinFrom, hc]
        dsimp only
        rw [hjoin, List.append_assoc, List.length_cons, Nat.add_assoc, Nat.add_comm 1]
    | none =>
      refine ⟨[line], line, (run, text) :: rest, ⟨?_, ?_⟩, fun n pending => ?_⟩
      · rw [List.cons_append, ← hflatten]
        rfl
      · exact List.forall_mem_cons.2 ⟨.last (continued?_eq_none_iff.1 hc), hjoins⟩
      · rw [List.cons_append, joinFrom, hc]
        dsimp only
        rw [hjoin, List.length_singleton, numbered, List.nil_append]

/-- The logical lines of an input are its runs. -/
theorem logicalLines_grouped (lines : List (List Char)) :
    ∃ runs, Grouped (lines ++ [[]]) runs ∧ logicalLines lines = numbered 0 runs := by
  have hlast : continued? [] = none := rfl
  obtain ⟨run, text, rest, hgrouped, hjoin⟩ := exists_grouped hlast lines
  exact ⟨(run, text) :: rest, hgrouped, hjoin 0 []⟩

end Source

/-! ## Line by line -/

namespace Compilation

/-- Where the reading of an input is. -/
structure Reading where
  compilation : Compilation
  cursor : Cursor := {}
  /-- The parts of continued lines that no logical line has taken yet. -/
  pending : List (List Char) := []
  /-- How many lines have been read. -/
  count : Nat := 0

namespace Reading

/-- Reads one line as it stands in the input. -/
def next (file : String) (r : Reading) (line : List Char) : Reading :=
  match Source.continued? line with
  | some part => { r with pending := r.pending ++ [part], count := r.count + 1 }
  | none =>
    let (c, k) := Compile.step ⟨file, r.count + 1⟩ (r.pending ++ [line]).flatten r.compilation
      r.cursor
    { compilation := c, cursor := k, pending := [], count := r.count + 1 }

variable {file : String}

/-- Line by line comes to the same as joining all lines first. -/
theorem foldl_next (lines : List (List Char)) (r : Reading) :
    ((lines.foldl (next file) r).compilation, (lines.foldl (next file) r).cursor)
      = r.compilation.readLogical file
        (Source.joinFrom (r.count + 1) r.pending.flatten lines) r.cursor := by
  induction lines generalizing r with
  | nil => rfl
  | cons line lines ih =>
    rw [List.foldl_cons, ih, next, Source.joinFrom]
    cases hc : Source.continued? line with
    | some part => simp
    | none => simp [readLogical]

/-- A line that is not continued takes all that is pending. -/
theorem pending_foldl_next (lines : List (List Char)) {last : List Char}
    (hlast : Source.continued? last = none) (r : Reading) :
    ((lines ++ [last]).foldl (next file) r).pending = [] := by
  rw [List.foldl_append, List.foldl_cons, List.foldl_nil, next, hlast]

end Reading

/-- The lines of an input, with one empty line after them, fall into runs in one way.  Each run is
read once and in order, as the text that it is joined to and under the number of its last line, and
when the lines are read one by one, nothing is pending in the end. -/
theorem readLines_joined (c : Compilation) (file : String) (lines : List (List Char)) :
    ∃ runs, Source.Grouped (lines ++ [[]]) runs
      ∧ (∀ other, Source.Grouped (lines ++ [[]]) other → other = runs)
      ∧ c.readLines file lines = (c.readLogical file (Source.numbered 0 runs) {}).1
      ∧ ((lines ++ [[]]).foldl (Reading.next file) { compilation := c }).compilation
        = c.readLines file lines
      ∧ ((lines ++ [[]]).foldl (Reading.next file) { compilation := c }).pending = [] := by
  obtain ⟨runs, hgrouped, hlines⟩ := Source.logicalLines_grouped lines
  refine ⟨runs, hgrouped, fun other => hgrouped.unique, ?_, ?_, ?_⟩
  · rw [readLines, hlines]
  · exact congrArg Prod.fst (Reading.foldl_next (lines ++ [[]]) { compilation := c })
  · exact Reading.pending_foldl_next lines rfl _

end Compilation

end SchemaLang
