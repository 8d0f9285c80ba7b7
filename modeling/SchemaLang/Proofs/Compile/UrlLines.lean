import SchemaLang.Proofs.Compile.Canonical
import SchemaLang.Proofs.Compile.Introductions
import SchemaLang.Proofs.Compile.Splitting
import SchemaLang.Proofs.Source.Urls

/-!
# Lines under the heading of URLs

A line under the heading of URLs that is nothing else is taken for a URL if a method follows its
blanks.  What comes after the URL is not looked at, so that a line is recorded as it is written
exactly if nothing but blanks is left of it.

That a URL is recorded needs an action to record it in: `HasAction` says that the action that a
block adds to is there, which every line keeps and so every input.

* `Compile.hasAction_step`, `Compilation.hasAction_readLogical`: the action is there.
* `Source.Line.parse?_of_indented`: what an indented line is, after all other forms.
* `Compilation.url_lines`: what a line does under the heading of URLs.
* `Compilation.exists_dropped`: a line with one word too many is recorded without it.
-/

namespace SchemaLang

namespace Compile

open Source (Line)

variable {pos : Position} {c : Compilation} {k : Cursor}

/-! ## The action that is open -/

/-- The action that sections and URLs are added to stands under its name. -/
def HasAction (types : Types) (block : Block) : Prop :=
  ∀ key, block.action? = some key → ∃ a, types.get? key = some (.action a) ∧ a.name = key

theorem HasAction.insert {types : Types} {block : Block} {name : String} {d : Definition}
    (h : HasAction types block)
    (hd : block.action? = some name → ∃ a, d = .action a ∧ a.name = name) :
    HasAction (types.insert name d) block := by
  intro key hkey
  rw [NameMap.get?_insert]
  split
  · next he =>
    obtain rfl := he
    obtain ⟨a, rfl, hn⟩ := hd hkey
    exact ⟨a, rfl, hn⟩
  · exact h key hkey

/-- What stands under the name of the open action is no other definition. -/
theorem HasAction.insert_other {types : Types} {block : Block} {name : String} {d d' : Definition}
    (h : HasAction types block) (hget : types.get? name = some d) (hd : ∀ a, d ≠ .action a) :
    HasAction (types.insert name d') block := by
  refine h.insert fun hkey => ?_
  obtain ⟨a, ha, -⟩ := h name hkey
  exact absurd (Option.some.inj (hget.symm.trans ha)) (hd a)

theorem hasAction_section {s : Section} {bases : Option (List String)}
    (h : HasAction c.types k.block) : HasAction (sectionOf pos s bases c k).1.types
      (sectionOf pos s bases c k).2.block := by
  rw [sectionOf]
  split
  · exact h
  · next key a ha =>
    obtain ⟨hb, ha⟩ := action?_of_open ha
    obtain ⟨b, hget, rfl⟩ := h key hb
    obtain rfl := Definition.action.inj (Option.some.inj
      ((action?_eq_some_iff.1 ha).symm.trans hget))
    simp only [Compilation.types_define, Compilation.types_reportIf, Compilation.types_update]
    rintro _ ⟨⟩
    rw [NameMap.get?_insert, if_neg (sectionTypeName_ne a s).symm, NameMap.get?_insert, if_pos rfl]
    exact ⟨_, rfl, name_setType a s _⟩

theorem hasAction_value {name : String} (h : HasAction c.types k.block) :
    HasAction (value pos name c k).1.types (value pos name c k).2.block := by
  rw [value]
  dsimp only
  split
  · exact h
  · next key e he =>
    exact h.insert_other (get?_of_open he fun _ _ => Definition.eq_of_enum?)
      fun _ => Definition.noConfusion

theorem hasAction_member {m : Member} (h : HasAction c.types k.block) :
    HasAction (member pos m c k).1.types (member pos m c k).2.block := by
  rw [member]
  dsimp only
  split
  · exact h
  · next key s hs =>
    exact h.insert_other (get?_of_open hs fun _ _ => Definition.eq_of_struct?)
      fun _ => Definition.noConfusion

theorem action?_reportIf (c : Compilation) (b : Bool) (fault : Fault) :
    (c.reportIf b pos fault).action? = c.action? := by
  cases b <;> rfl

theorem hasAction_url {method : String} {path : Option String} (h : HasAction c.types k.block) :
    HasAction (url pos method path c k).1.types (url pos method path c k).2.block := by
  rw [url]
  split
  · next key listed hb =>
    rw [hb] at h
    dsimp only
    rw [action?_reportIf]
    split
    · rwa [Compilation.types_reportIf]
    · next a ha =>
      obtain ⟨b, hget, rfl⟩ := h key rfl
      obtain rfl := Definition.action.inj (Option.some.inj
        ((action?_eq_some_iff.1 ha).symm.trans hget))
      rw [Compilation.types_update, Compilation.types_reportIf]
      exact HasAction.insert h fun _ => ⟨_, rfl, rfl⟩
  · exact h

theorem hasAction_apply {line : Line} (h : HasAction c.types k.block) :
    HasAction (apply pos line c k).1.types (apply pos line c k).2.block := by
  cases line with
  | comment doc => cases doc <;> exact h
  | group name => exact h
  | action name =>
    rintro _ ⟨⟩
    refine ⟨{ name, doc := k.doc?, docGroup := k.group }, ?_, rfl⟩
    rw [apply, action, Compilation.types_define, NameMap.get?_insert, if_pos rfl]
  | definition kind name bases => rintro _ ⟨⟩
  | «section» s bases => exact hasAction_section h
  | urls =>
    rw [apply, urls]
    split
    · exact h
    · next key hb =>
      rintro _ ⟨⟩
      rw [Compilation.types_reportIf]
      exact h key hb
  | value name => exact hasAction_value h
  | member optional name expr =>
    rw [apply]
    split
    · exact h
    · exact hasAction_member h
  | url method path => exact hasAction_url h
  | typedef name expr =>
    rw [apply]
    split
    · exact h
    · rintro _ ⟨⟩

theorem hasAction_step {text : List Char} (h : HasAction c.types k.block) :
    HasAction (step pos text c k).1.types (step pos text c k).2.block := by
  rw [step]
  split
  · exact h
  · exact hasAction_apply h

end Compile

/-- Every input starts outside all blocks, so that the action that is open has been defined. -/
theorem Compilation.hasAction_readLogical {file : String} {lines : List (Nat × List Char)}
    {c : Compilation} {k : Cursor} (h : Compile.HasAction c.types k.block) :
    Compile.HasAction (c.readLogical file lines k).1.types
      (c.readLogical file lines k).2.block := by
  induction lines generalizing c k with
  | nil => exact h
  | cons line lines ih => exact ih (Compile.hasAction_step h)

/-! ## Indented lines -/

namespace Source

/-- A line that begins with a blank. -/
def Indented (text : List Char) : Prop := ∃ c ∈ text.head?, isBlank c = true

theorem Line.typedef?_of_indented {text : List Char} (h : Indented text) :
    typedef? text = none := by
  obtain ⟨c, hc, hblank⟩ := h
  obtain ⟨tail, rfl⟩ := List.head?_eq_some_iff.1 hc
  rw [Option.eq_none_iff_forall_ne_some]
  intro line hline
  have hnone := blanks?_of_typedef? hline
  simp [blanks?, hblank] at hnone

/-- An indented line is taken for a URL after all else. -/
theorem Line.parse?_of_indented {place : Place} {text : List Char} (h : Indented text)
    (hother : parse? { place with urls := false } text = none) :
    parse? place text = onlyIf place.urls (url? text) := by
  have htypedef := typedef?_of_indented h
  simp only [parse?, Option.orElse_eq_orElse, Option.orElse_eq_or, htypedef, Option.or_eq_none_iff]
    at hother ⊢
  obtain ⟨h₁, h₂, h₃, h₄, h₅, h₆, h₇, h₈, -⟩ := hother
  rw [h₁, h₂, h₃, h₄, h₅, h₆, h₇, h₈]
  simp only [Option.none_or, Option.or_none]

end Source

/-! ## Lines under the heading -/

/-- The URL that a method and a path stand for.  That all methods are meant is not kept. -/
def Url.ofTexts (method : List Char) (path : Option (List Char)) : Url :=
  { method := if method = ['*'] then none else some (String.ofList method)
    path := path.map String.ofList }

namespace Compile

open Source (Line Indented UrlUpTo WholeUrl)

variable {pos : Position} {c : Compilation} {k : Cursor}

/-- A URL is put at the end of the list of its action and of the list under the heading, and is
reported if it has been listed there. -/
structure Records (pos : Position) (c : Compilation) (k : Cursor) (key : String) (a : Action)
    (listed : List Url) (method : List Char) (path : Option (List Char))
    (after : Compilation × Cursor) : Prop where
  cursor : after.2 = { k with block := .urls key (listed ++ [Url.ofTexts method path]) }
  types : after.1.types = c.types.insert key
    (.action { a with urls := some (a.urls.getD [] ++ [Url.ofTexts method path]) })
  positions : after.1.positions = c.positions
  log : after.1.log = if listed.contains (Url.ofTexts method path) then
      ⟨pos, (Fault.duplicateUrl (String.ofList method) (path.map String.ofList)).message⟩ :: c.log
    else c.log

theorem records_url {key : String} {a : Action} {listed : List Url}
    (hb : k.block = .urls key listed) (ha : c.action? key = some a) (method : List Char)
    (path : Option (List Char)) : Records pos c k key a listed method path
      (url pos (String.ofList method) (path.map String.ofList) c k) := by
  have hmethod : String.ofList method = "*" ↔ method = ['*'] := by
    rw [← String.toList_inj, String.toList_ofList]
    exact Iff.rfl
  have hurl : ({ method := if String.ofList method = "*" then none else some (String.ofList method)
                 path := path.map String.ofList } : Url) = Url.ofTexts method path := by
    simp only [Url.ofTexts, hmethod]
  rw [url, hb]
  simp only [hurl, action?_reportIf, ha]
  refine ⟨rfl, ?_, ?_, ?_⟩
  · rw [Compilation.types_update, Compilation.types_reportIf]
  · cases listed.contains (Url.ofTexts method path) <;> rfl
  · exact log_reportIf _ _

/-- A line under the heading of URLs that is nothing else. -/
theorem step_under_urls {key : String} {listed : List Url} {text : List Char}
    (hb : k.block = .urls key listed) (hi : Indented text)
    (hother : Line.parse? { k.place c with urls := false } text = none) :
    step pos text c k = (Line.url? text).elim (c.report pos .unreadable, k)
      fun line => apply pos line c k := by
  have hplace : (k.place c).urls = true := by
    rw [Cursor.place, hb]
  have hparse : Line.parse? (k.place c) text = Line.url? text := by
    rw [Line.parse?_of_indented hi hother, Line.onlyIf, if_pos hplace]
  rw [step, hparse]
  cases Line.url? text <;> rfl

end Compile

namespace Compilation

open Source (Line Indented UrlUpTo WholeUrl Blank)

/-- An indented line under the heading of URLs that is nothing else is recorded as the URL that its
blanks, a method and perhaps a path begin with, whatever comes after it; without a method it is
reported and changes nothing.  It is a URL and nothing but a URL if blanks alone come after. -/
theorem url_lines {c₀ c : Compilation} {k : Cursor} {file : String}
    {before : List (Nat × List Char)} (hrun : c₀.readLogical file before {} = (c, k))
    {key : String} {listed : List Url} (hblock : k.block = .urls key listed) {text : List Char}
    (hindent : Indented text)
    (hother : Line.parse? { k.place c with urls := false } text = none) (pos : Position) :
    ∃ a, c.types.get? key = some (.action a)
      ∧ (∀ {method path rest}, UrlUpTo text method path rest →
        Compile.Records pos c k key a listed method path (Compile.step pos text c k))
      ∧ ((¬∃ method path rest, UrlUpTo text method path rest) →
        Compile.step pos text c k = (c.report pos .unreadable, k))
      ∧ ∀ {method path}, WholeUrl text method path
        ↔ ∃ rest, UrlUpTo text method path rest ∧ Blank rest := by
  have hstart : Compile.HasAction c₀.types ({} : Cursor).block := fun key hkey => by cases hkey
  have hopen : Compile.HasAction (c₀.readLogical file before {}).1.types
      (c₀.readLogical file before {}).2.block := hasAction_readLogical hstart
  rw [hrun, hblock] at hopen
  obtain ⟨a, hget, -⟩ := hopen key rfl
  have hstep : Compile.step pos text c k = _ := Compile.step_under_urls hblock hindent hother
  refine ⟨a, hget, ?_, ?_, Source.wholeUrl_iff⟩
  · intro method path rest hu
    rw [hstep, Line.url?_eq_some_iff.2 ⟨method, path, rest, hu, rfl⟩]
    exact Compile.records_url hblock (Compile.action?_eq_some_iff.2 hget) method path
  · intro hnone
    rw [hstep]
    cases hu : Line.url? text with
    | none => rfl
    | some line =>
      obtain ⟨method, path, rest, hu, -⟩ := Line.url?_eq_some_iff.1 hu
      exact absurd ⟨method, path, rest, hu⟩ hnone

/-- Under the heading of URLs of an action. -/
def underUrls : Compilation × Cursor :=
  ({} : Compilation).readLogical "" [(1, "action A".toList), (2, "    urls".toList)] {}

theorem block_underUrls : underUrls.2.block = .urls "A" [] := by decide +kernel

/-- A line with blanks on both sides is recorded whole. -/
theorem url_lines_trailing :
    underUrls.2.block = .urls "A" [] ∧ Indented "  GET /a ".toList
      ∧ Line.parse? { underUrls.2.place underUrls.1 with urls := false } "  GET /a ".toList = none
      ∧ WholeUrl "  GET /a ".toList "GET".toList (some "/a".toList)
      ∧ ∃ a, underUrls.1.types.get? "A" = some (.action a)
        ∧ Compile.Records ⟨"", 3⟩ underUrls.1 underUrls.2 "A" a [] "GET".toList (some "/a".toList)
          (Compile.step ⟨"", 3⟩ "  GET /a ".toList underUrls.1 underUrls.2) := by
  have hindent : Indented "  GET /a ".toList := ⟨' ', rfl, rfl⟩
  have hother : Line.parse? { underUrls.2.place underUrls.1 with urls := false }
      "  GET /a ".toList = none := by decide +kernel
  have hw : WholeUrl "  GET /a ".toList "GET".toList (some "/a".toList) := by
    have hmethod : Source.IsMethod "GET".toList := .named (by decide) (List.all_eq_true.1 rfl)
    have hpath : Source.UrlPath "/a".toList := ⟨rfl, by simp [Source.isBlank]⟩
    exact @WholeUrl.path "  ".toList _ " ".toList _ " ".toList (by decide) hmethod (by decide) hpath
      (by decide)
  have hrun : ({} : Compilation).readLogical "" [(1, "action A".toList), (2, "    urls".toList)] {}
      = (underUrls.1, underUrls.2) := rfl
  obtain ⟨a, ha, hrecords, -, hwhole⟩ := url_lines hrun block_underUrls hindent hother ⟨"", 3⟩
  obtain ⟨rest, hu, -⟩ := hwhole.1 hw
  exact ⟨block_underUrls, hindent, hother, hw, a, ha, hrecords hu⟩

/-- A line with one word too many is no whole URL, and it is recorded without that word. -/
theorem exists_dropped :
    underUrls.2.block = .urls "A" [] ∧ Indented "  GET /a b".toList
      ∧ Line.parse? { underUrls.2.place underUrls.1 with urls := false } "  GET /a b".toList = none
      ∧ (¬∃ method path, WholeUrl "  GET /a b".toList method path)
      ∧ (Compile.step ⟨"", 3⟩ "  GET /a b".toList underUrls.1 underUrls.2).1.log = []
      ∧ (Compile.step ⟨"", 3⟩ "  GET /a b".toList underUrls.1 underUrls.2).2.block
        = .urls "A" [{ method := some "GET", path := some "/a" }] := by
  refine ⟨block_underUrls, ⟨' ', rfl, rfl⟩, by decide +kernel, ?_, by decide +kernel,
    by decide +kernel⟩
  rintro ⟨method, path, hw⟩
  obtain ⟨rest, hu, -⟩ := Source.wholeUrl_iff.1 hw
  have hread := Line.url?_eq_some_iff.2 ⟨method, path, rest, hu, rfl⟩
  have hurl : Line.url? "  GET /a b".toList = some (.url "GET" (some "/a")) := by decide +kernel
  obtain ⟨hmethod, hpath⟩ := Line.url.inj (Option.some.inj (hurl.symm.trans hread))
  obtain ⟨letters, rfl, hletters⟩ := Option.map_eq_some_iff.1 hpath.symm
  -- The last word is in the line but not in the URL.
  have hkept := congrArg String.ofList hw.kept
  rw [Option.getD_some, String.ofList_append, ← hmethod, hletters] at hkept
  exact absurd hkept (by decide +kernel)

end Compilation

end SchemaLang
