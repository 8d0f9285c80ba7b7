import SchemaLang.Proofs.Source.Scan
import SchemaLang.Source.Line

/-!
# Texts of URLs

A URL is written as a method, or as a method, blanks and a path.  `WholeUrl` is a line with nothing
else in it but blanks in front and at the end.  The scanner does not ask for so much: it takes the
method and the path that it finds after the blanks in front, each as long as it can be, and leaves
what comes next, which is `UrlUpTo`.  So it reads whole lines as they are meant, and of the others
it reads the part that it understands.

* `Line.url?_eq_some_iff`: which URL a text is taken for.
* `wholeUrl_iff`: the lines of which nothing but blanks is left.
* `WholeUrl.kept`: a whole line has no characters but those of the URL and blanks.
-/

namespace SchemaLang.Source

variable {cs rest : List Char}

/-! ## The parts of a URL -/

/-- A method is written with letters, or as the mark for all methods. -/
inductive IsMethod : List Char → Prop
  | all : IsMethod ['*']
  | named {letters : List Char} (hne : letters ≠ []) (h : ∀ c ∈ letters, c.isAlpha = true) :
      IsMethod letters

/-- The method at the front of a text.  Letters are taken as far as they go. -/
inductive MethodUpTo : List Char → List Char → List Char → Prop
  | all (rest : List Char) : MethodUpTo ('*' :: rest) ['*'] rest
  | named {cs letters rest : List Char} (hne : letters ≠ [])
      (h : Run Char.isAlpha cs letters rest) : MethodUpTo cs letters rest

/-- A path has a slash in front and no blanks. -/
def UrlPath (path : List Char) : Prop := path.head? = some '/' ∧ ∀ c ∈ path, isBlank c = false

/-- A path after blanks, up to the next blank. -/
def PathUpTo (cs path rest : List Char) : Prop :=
  ∃ gap, Gap gap ∧ UrlPath path ∧ cs = gap ++ (path ++ rest) ∧ ∀ c ∈ rest.head?, isBlank c = true

theorem MethodUpTo.method {method : List Char} (h : MethodUpTo cs method rest) :
    IsMethod method ∧ cs = method ++ rest := by
  cases h with
  | all => exact ⟨.all, rfl⟩
  | named hne h => exact ⟨.named hne h.all, h.eq⟩

/-- What a method starts with is no blank. -/
theorem MethodUpTo.starts {method : List Char} (h : MethodUpTo cs method rest) :
    ∀ c ∈ cs.head?, isBlank c = false := by
  cases h with
  | all =>
    rintro c ⟨⟩
    rfl
  | named hne h =>
    obtain ⟨rfl, hall, -⟩ := h
    obtain ⟨first, tail, rfl⟩ := List.exists_cons_of_ne_nil hne
    rintro c ⟨⟩
    exact isBlank_of_isAlpha (hall _ List.mem_cons_self)

/-- Where the text goes on with a blank, or ends, a method is all that is there. -/
theorem methodUpTo_append {method : List Char} (hm : IsMethod method)
    (hr : ∀ c ∈ rest.head?, isBlank c = true) : MethodUpTo (method ++ rest) method rest := by
  cases hm with
  | all => exact .all rest
  | named hne h =>
    refine .named hne ⟨rfl, h, fun c hc => ?_⟩
    by_contra ha
    exact Bool.false_ne_true ((isBlank_of_isAlpha (by simpa using ha)).symm.trans (hr c hc))

theorem Line.method?_eq_some_iff {method : String} :
    method? cs = some (method, rest)
      ↔ ∃ letters, MethodUpTo cs letters rest ∧ method = String.ofList letters := by
  constructor
  · intro h
    unfold method? at h
    split at h
    · obtain ⟨rfl, rfl⟩ := Prod.mk.inj (Option.some.inj h)
      exact ⟨_, .all _, rfl⟩
    · simp only [Option.ite_none_left_eq_some, List.isEmpty_iff] at h
      obtain ⟨hne, he⟩ := h
      obtain ⟨rfl, rfl⟩ := Prod.mk.inj (Option.some.inj he)
      exact ⟨_, .named hne (run_iff.2 ⟨rfl, rfl⟩), rfl⟩
  · rintro ⟨letters, hm, rfl⟩
    cases hm with
    | all => rfl
    | named hne h =>
      obtain ⟨htake, hdrop⟩ := run_iff.1 h
      rw [method?.eq_def]
      split
      · next tail =>
        -- The mark for all methods is no letter.
        exact absurd (htake.symm.trans (List.takeWhile_cons_of_neg (by decide))) hne
      · simp only [htake, hdrop, List.isEmpty_iff, hne, if_false]

theorem Line.path?_eq_some_iff {path : String} :
    path? cs = some path
      ↔ ∃ letters rest, PathUpTo cs letters rest ∧ path = String.ofList letters := by
  simp only [path?, Option.bind_eq_bind, Option.bind_eq_some_iff]
  constructor
  · rintro ⟨after, hgap, h⟩
    obtain ⟨gap, hne, hrun⟩ := blanks?_eq_some_iff.1 hgap
    split at h
    · next tail =>
      obtain ⟨htail, hall, hends⟩ := run_iff (p := fun c => !isBlank c).2
        ⟨Eq.refl (tail.takeWhile fun c => !isBlank c), rfl⟩
      refine ⟨_, tail.dropWhile fun c => !isBlank c, ⟨gap, ⟨hne, hrun.all⟩, ⟨rfl, ?_⟩, ?_, ?_⟩,
        (Option.some.inj h).symm⟩
      · rintro c (_ | ⟨_, hc⟩)
        · rfl
        · simpa using hall c hc
      · rw [List.cons_append, ← htail]
        exact hrun.eq
      · intro c hc
        simpa using hends c hc
    · simp at h
  · rintro ⟨letters, rest, ⟨gap, ⟨hne, hblank⟩, ⟨hslash, hpath⟩, rfl, hends⟩, rfl⟩
    obtain ⟨tail, rfl⟩ := List.head?_eq_some_iff.1 hslash
    refine ⟨'/' :: (tail ++ rest), blanks?_eq_some_iff.2 ⟨gap, hne, rfl, hblank, ?_⟩, ?_⟩
    · rintro c ⟨⟩
      rfl
    · have hrun : Run (fun c => !isBlank c) (tail ++ rest) tail rest := by
        refine ⟨rfl, fun c hc => ?_, fun c hc => ?_⟩
        · simp [hpath c (List.mem_cons_of_mem _ hc)]
        · simp [hends c hc]
      show some (String.ofList ('/' :: (tail ++ rest).takeWhile fun c => !isBlank c)) = _
      rw [(run_iff.1 hrun).1]

theorem Line.path?_eq_none_iff : path? cs = none ↔ ∀ path rest, ¬PathUpTo cs path rest := by
  rw [Option.eq_none_iff_forall_ne_some]
  constructor
  · intro h path rest hp
    exact h _ (path?_eq_some_iff.2 ⟨path, rest, hp, rfl⟩)
  · intro h path hp
    obtain ⟨letters, rest, hp, -⟩ := path?_eq_some_iff.1 hp
    exact h letters rest hp

/-! ## The URL at the front of a text -/

/-- Blanks, a method and, if there is one, a path are at the front of the text, and this is what
comes after them. -/
inductive UrlUpTo : List Char → List Char → Option (List Char) → List Char → Prop
  | bare {gap cs method rest : List Char} (hg : Gap gap) (hm : MethodUpTo cs method rest)
      (hp : ∀ path after, ¬PathUpTo rest path after) : UrlUpTo (gap ++ cs) method none rest
  | path {gap cs method after path rest : List Char} (hg : Gap gap)
      (hm : MethodUpTo cs method after) (hp : PathUpTo after path rest) :
      UrlUpTo (gap ++ cs) method (some path) rest

/-- A line with a URL and nothing else: blanks, a method, perhaps blanks and a path, and blanks at
the end. -/
inductive WholeUrl : List Char → List Char → Option (List Char) → Prop
  | bare {gap method trail : List Char} (hg : Gap gap) (hm : IsMethod method)
      (ht : Blank trail) : WholeUrl (gap ++ (method ++ trail)) method none
  | path {gap method gap' path trail : List Char} (hg : Gap gap) (hm : IsMethod method)
      (hg' : Gap gap') (hp : UrlPath path) (ht : Blank trail) :
      WholeUrl (gap ++ (method ++ (gap' ++ (path ++ trail)))) method (some path)

theorem Line.url?_eq_some_iff {line : Line} :
    url? cs = some line ↔ ∃ method path rest, UrlUpTo cs method path rest
      ∧ line = .url (String.ofList method) (path.map String.ofList) := by
  simp only [url?, Option.bind_eq_bind, Option.bind_eq_some_iff]
  constructor
  · rintro ⟨start, hgap, ⟨m, after⟩, hm, h⟩
    obtain ⟨gap, hne, rfl, hblank, -⟩ := blanks?_eq_some_iff.1 hgap
    obtain ⟨method, hupTo, rfl⟩ := method?_eq_some_iff.1 hm
    obtain rfl := Option.some.inj h
    cases hp : path? after with
    | none => exact ⟨method, none, after, .bare ⟨hne, hblank⟩ hupTo (path?_eq_none_iff.1 hp), rfl⟩
    | some p =>
      obtain ⟨path, rest, hpath, rfl⟩ := path?_eq_some_iff.1 hp
      exact ⟨method, some path, rest, .path ⟨hne, hblank⟩ hupTo hpath, rfl⟩
  · rintro ⟨method, path, rest, hu, rfl⟩
    cases hu with
    | bare hg hm hp =>
      refine ⟨_, blanks?_eq_some_iff.2 ⟨_, hg.1, rfl, hg.2, hm.starts⟩, _,
        method?_eq_some_iff.2 ⟨_, hm, rfl⟩, ?_⟩
      rw [path?_eq_none_iff.2 hp]
      rfl
    | path hg hm hp =>
      refine ⟨_, blanks?_eq_some_iff.2 ⟨_, hg.1, rfl, hg.2, hm.starts⟩, _,
        method?_eq_some_iff.2 ⟨_, hm, rfl⟩, ?_⟩
      rw [path?_eq_some_iff.2 ⟨_, _, hp, rfl⟩]
      rfl

/-! ## Whole lines -/

/-- Among blanks there is no slash. -/
theorem Blank.not_pathUpTo (h : Blank cs) {path : List Char} : ¬PathUpTo cs path rest := by
  rintro ⟨gap, -, ⟨hslash, -⟩, rfl, -⟩
  obtain ⟨tail, rfl⟩ := List.head?_eq_some_iff.1 hslash
  have hb := h '/' (by simp)
  exact absurd hb (by decide)

theorem wholeUrl_iff {method : List Char} {path : Option (List Char)} :
    WholeUrl cs method path ↔ ∃ rest, UrlUpTo cs method path rest ∧ Blank rest := by
  constructor
  · intro h
    cases h with
    | @bare gap _ trail hg hm ht =>
      exact ⟨trail, .bare hg (methodUpTo_append hm ht.head?) fun _ _ => ht.not_pathUpTo, ht⟩
    | @path gap _ gap' path trail hg hm hg' hp ht =>
      exact ⟨trail, .path hg (methodUpTo_append hm (hg'.head?_append _))
        ⟨gap', hg', hp, rfl, ht.head?⟩, ht⟩
  · rintro ⟨rest, hu, hr⟩
    cases hu with
    | bare hg hm hp =>
      obtain ⟨hmethod, rfl⟩ := hm.method
      exact .bare hg hmethod hr
    | path hg hm hp =>
      obtain ⟨hmethod, rfl⟩ := hm.method
      obtain ⟨gap', hg', hpath, rfl, -⟩ := hp
      exact .path hg hmethod hg' hpath hr

theorem filter_eq_self_of_not_blank {cs : List Char} (h : ∀ c ∈ cs, isBlank c = false) :
    cs.filter (fun c => !isBlank c) = cs := by
  rw [List.filter_eq_self]
  intro c hc
  simp [h c hc]

theorem IsMethod.not_blank {method : List Char} (h : IsMethod method) :
    ∀ c ∈ method, isBlank c = false := by
  cases h with
  | all =>
    intro c hc
    obtain rfl := List.mem_singleton.1 hc
    rfl
  | named hne h => exact fun c hc => isBlank_of_isAlpha (h c hc)

/-- A whole line is all in its URL, up to blanks. -/
theorem WholeUrl.kept {method : List Char} {path : Option (List Char)}
    (h : WholeUrl cs method path) : cs.filter (fun c => !isBlank c) = method ++ path.getD [] := by
  cases h with
  | bare hg hm ht =>
    simp only [List.filter_append, hg.2.filter, ht.filter,
      filter_eq_self_of_not_blank hm.not_blank, List.nil_append, List.append_nil, Option.getD_none]
  | path hg hm hg' hp ht =>
    simp only [List.filter_append, hg.2.filter, hg'.2.filter, ht.filter,
      filter_eq_self_of_not_blank hm.not_blank, filter_eq_self_of_not_blank hp.2, List.nil_append,
      List.append_nil, Option.getD_some]

end SchemaLang.Source
