import SchemaLang.Proofs.Compile.Outline

/-!
# The URLs of actions

A URL is reported if it has been listed under the same heading, and it is kept with its action
whether it is reported or not.  Where nothing is reported the two lists are the same: a heading
starts with an empty list and is reported if its action has URLs, and an action that comes with a
header has none and takes no name that is in use.  A section may take the place of another action,
but then the name is in use and no action comes back to it.

* `Lists`: the URLs of actions are those that have been listed for them, each once.
* `Compile.lists_apply`, `Compilation.lists_readLogical`: lines that report nothing keep it so.
* `Compilation.urls_after`: the URLs of an action after a session without diagnostics.
-/

namespace SchemaLang

/-- What has been listed for an action, in order. -/
def urlsFor (key : String) (listed : List (String × Url)) : List Url :=
  listed.filterMap fun (action, url) => if action = key then some url else none

theorem urlsFor_concat (key : String) (listed : List (String × Url)) (action : String) (url : Url) :
    urlsFor key (listed ++ [(action, url)])
      = urlsFor key listed ++ if action = key then [url] else [] := by
  rw [urlsFor, List.filterMap_append]
  by_cases h : action = key <;> simp [h, urlsFor]

/-- The URLs of actions are those that have been listed, and none has been listed twice.  Nothing
has been listed for names that are not in use. -/
structure Lists (types : Types) (listed : List (String × Url)) : Prop where
  urls : ∀ key a, types.get? key = some (.action a) → a.urls.getD [] = urlsFor key listed
  nodup : ∀ key a, types.get? key = some (.action a) → (urlsFor key listed).Nodup
  unused : ∀ key, ¬types.contains key = true → urlsFor key listed = []

/-- What a heading has listed is all that its action has. -/
def Block.HasListed (block : Block) (listed : List (String × Url)) : Prop :=
  ∀ key urls, block = .urls key urls → urls = urlsFor key listed

theorem lists_empty : Lists {} [] where
  urls key a h := by simp [show (∅ : Types).get? key = none from rfl] at h
  nodup _ _ _ := .nil
  unused _ _ := rfl

/-- A definition that is put into a model is no action, or it has the URLs that have been listed. -/
theorem Lists.insert {types : Types} {listed : List (String × Url)} {name : String}
    {d : Definition} (h : Lists types listed)
    (hd : ∀ a, d = .action a → a.urls.getD [] = urlsFor name listed ∧ (urlsFor name listed).Nodup) :
    Lists (types.insert name d) listed := by
  have hget : ∀ key a, (types.insert name d).get? key = some (.action a) →
      a.urls.getD [] = urlsFor key listed ∧ (urlsFor key listed).Nodup := by
    intro key a ha
    rw [NameMap.get?_insert] at ha
    by_cases he : name = key
    · rw [if_pos he] at ha
      exact he ▸ hd a (Option.some.inj ha)
    · rw [if_neg he] at ha
      exact ⟨h.urls key a ha, h.nodup key a ha⟩
  refine ⟨fun key a ha => (hget key a ha).1, fun key a ha => (hget key a ha).2, ?_⟩
  intro key hkey
  exact h.unused key fun hc => hkey (NameMap.contains_insert.2 (.inr hc))

theorem Lists.insert_other {types : Types} {listed : List (String × Url)} {name : String}
    {d : Definition} (h : Lists types listed) (hd : ∀ a, d ≠ .action a) :
    Lists (types.insert name d) listed :=
  h.insert fun a ha => absurd ha (hd a)

/-- One more URL, which has not been listed yet. -/
theorem Lists.url {types : Types} {listed : List (String × Url)} {key : String} {a : Action}
    {url : Url} (h : Lists types listed) (ha : types.get? key = some (.action a))
    (hnew : url ∉ urlsFor key listed) :
    Lists (types.insert key (.action { a with urls := some (a.urls.getD [] ++ [url]) }))
      (listed ++ [(key, url)]) := by
  have hurls := h.urls key a ha
  have hget : ∀ other b, (types.insert key (.action
      { a with urls := some (a.urls.getD [] ++ [url]) })).get? other = some (.action b) →
      b.urls.getD [] = urlsFor other (listed ++ [(key, url)])
        ∧ (urlsFor other (listed ++ [(key, url)])).Nodup := by
    intro other b hb
    rw [NameMap.get?_insert] at hb
    rw [urlsFor_concat]
    by_cases he : key = other
    · subst he
      rw [if_pos rfl] at hb ⊢
      obtain rfl := Definition.action.inj (Option.some.inj hb)
      rw [Option.getD_some, hurls]
      refine ⟨rfl, List.nodup_append.2 ⟨h.nodup key a ha, List.nodup_singleton url, ?_⟩⟩
      rintro other hother _ hm rfl
      exact hnew (List.mem_singleton.1 hm ▸ hother)
    · rw [if_neg he] at hb ⊢
      rw [List.append_nil]
      exact ⟨h.urls other b hb, h.nodup other b hb⟩
  refine ⟨fun other b hb => (hget other b hb).1, fun other b hb => (hget other b hb).2, ?_⟩
  intro other hother
  rw [NameMap.contains_insert, not_or] at hother
  rw [urlsFor_concat, if_neg hother.1, List.append_nil]
  exact h.unused other hother.2

namespace Compile

open Source (Line Scope)

variable {pos : Position} {c : Compilation} {k : Cursor} {scope : Scope}
variable {listed : List (String × Url)}

theorem eq_false_of_log {b : Bool} {fault : Fault} (h : (c.reportIf b pos fault).log = []) :
    b = false := by
  rw [log_reportIf] at h
  cases b with
  | false => rfl
  | true => exact absurd h (List.cons_ne_nil _ _)

theorem Follows.eq_urls {key : String} {urls : List Url} (h : Follows c k scope)
    (hb : k.block = .urls key urls) : scope = .urls key := by
  have haction := h.action
  have hurls := h.urls
  rw [hb] at haction hurls
  cases scope with
  | urls other => exact congrArg Scope.urls (Option.some.inj haction).symm
  | _ => exact absurd hurls (by simp [Block.isUrls, Scope.isUrls])

theorem hasListed_of_ne {block : Block} (h : block.isUrls = false) : block.HasListed listed := by
  rintro key urls rfl
  exact Bool.noConfusion h

/-! ## One line -/

theorem lists_define {name : String} {d : Definition} {b : Bool} {fault : Fault}
    (h : Lists c.types listed)
    (hd : ∀ a, d = .action a → a.urls = none ∧ ¬c.types.contains name = true) :
    Lists ((c.reportIf b pos fault).define pos name d).types listed := by
  rw [Compilation.types_define, Compilation.types_reportIf]
  refine h.insert fun a ha => ?_
  obtain ⟨hnone, hunused⟩ := hd a ha
  rw [hnone, h.unused name hunused]
  exact ⟨rfl, .nil⟩

theorem lists_section {s : Section} {bases : Option (List String)} (h : Lists c.types listed)
    (ho : k.block.HasListed listed) : Lists (sectionOf pos s bases c k).1.types listed
      ∧ (sectionOf pos s bases c k).2.block.HasListed listed := by
  rw [sectionOf]
  split
  · exact ⟨h, ho⟩
  · next key a ha =>
    have hget := action?_eq_some_iff.1 (action?_of_open ha).2
    refine ⟨?_, hasListed_of_ne rfl⟩
    simp only [Compilation.types_define, Compilation.types_reportIf, Compilation.types_update]
    refine (h.insert ?_).insert_other (sectionDefinition_ne_action s _ bases)
    rintro b hb
    obtain rfl := Definition.action.inj hb
    have hurls : (a.setType s (sectionTypeName a s)).urls = a.urls := by cases s <;> rfl
    rw [hurls]
    exact ⟨h.urls key a hget, h.nodup key a hget⟩

/-- A heading that is not reported comes before all URLs of its action. -/
theorem lists_urls (h : Lists c.types listed) (ho : k.block.HasListed listed)
    (hf : Follows c k scope) (hlog : (urls pos c k).1.log = []) :
    Lists (urls pos c k).1.types listed ∧ (urls pos c k).2.block.HasListed listed := by
  rw [urls] at hlog ⊢
  split at hlog
  · exact ⟨h, ho⟩
  · next key hb =>
    obtain ⟨a, ha, -⟩ := hf.hasAction key hb
    have hnone := eq_false_of_log hlog
    rw [action?_eq_some_iff.2 ha, Option.bind_some, Option.isSome_eq_false_iff,
      Option.isNone_iff_eq_none] at hnone
    refine ⟨by rwa [Compilation.types_reportIf], ?_⟩
    rintro _ _ ⟨⟩
    rw [← h.urls key a ha, hnone, Option.getD_none]

theorem lists_value {name : String} (h : Lists c.types listed) :
    Lists (value pos name c k).1.types listed := by
  rw [value]
  dsimp only
  split
  · exact h
  · exact h.insert_other fun _ => Definition.noConfusion

theorem lists_member {m : Member} (h : Lists c.types listed) :
    Lists (member pos m c k).1.types listed := by
  rw [member]
  dsimp only
  split
  · exact h
  · exact h.insert_other fun _ => Definition.noConfusion

theorem lists_url {method : String} {path : Option String} (h : Lists c.types listed)
    (ho : k.block.HasListed listed) (hf : Follows c k scope)
    (hlog : (url pos method path c k).1.log = []) :
    Lists (url pos method path c k).1.types (listed ++ (scope.url? (.url method path)).toList)
      ∧ (url pos method path c k).2.block.HasListed
        (listed ++ (scope.url? (.url method path)).toList) := by
  rw [url] at hlog ⊢
  split at hlog
  · next key urls hb =>
    let new : Url := { method := if method = "*" then none else some method, path }
    obtain ⟨a, ha, -⟩ := hf.hasAction key (by rw [hb]; rfl)
    have hnew : (scope.url? (.url method path)).toList = [(key, new)] := by
      rw [hf.eq_urls hb]
      rfl
    have hurls : urls = urlsFor key listed := ho key urls hb
    simp only [action?_reportIf, action?_eq_some_iff.2 ha] at hlog ⊢
    have hnot : new ∉ urlsFor key listed := by
      have hcontains : urls.contains new = false := eq_false_of_log hlog
      rw [← hurls]
      simpa using hcontains
    rw [hnew, Compilation.types_update, Compilation.types_reportIf]
    refine ⟨h.url ha hnot, ?_⟩
    rintro _ _ ⟨⟩
    rw [urlsFor_concat, if_pos rfl, hurls]
  · next hne =>
    have hnone : scope.url? (.url method path) = none := by
      cases scope with
      | urls key =>
        obtain ⟨urls, hb⟩ := hf.exists_listed
        exact absurd hb (hne key urls)
      | _ => rfl
    rw [hnone, Option.toList_none, List.append_nil]
    exact ⟨h, ho⟩

/-- A line that reports nothing lists its URL, if it has one, and changes no list else. -/
theorem lists_apply {line : Line} (h : Lists c.types listed) (ho : k.block.HasListed listed)
    (hf : Follows c k scope) (hlog : (apply pos line c k).1.log = []) :
    Lists (apply pos line c k).1.types (listed ++ (scope.url? line).toList)
      ∧ (apply pos line c k).2.block.HasListed (listed ++ (scope.url? line).toList) := by
  by_cases hurl : ∃ method path, line = .url method path
  · obtain ⟨method, path, rfl⟩ := hurl
    exact lists_url h ho hf hlog
  have hnone : scope.url? line = none := by
    cases line with
    | url method path => exact absurd ⟨method, path, rfl⟩ hurl
    | _ => cases scope <;> rfl
  rw [hnone, Option.toList_none, List.append_nil]
  cases line with
  | comment doc => cases doc <;> exact ⟨h, ho⟩
  | group name => exact ⟨h, ho⟩
  | action name =>
    refine ⟨lists_define h ?_, hasListed_of_ne rfl⟩
    rintro a ha
    obtain rfl := Definition.action.inj ha
    refine ⟨rfl, ?_⟩
    rw [eq_false_of_log hlog]
    exact Bool.false_ne_true
  | definition kind name bases =>
    refine ⟨lists_define h ?_, hasListed_of_ne rfl⟩
    intro a ha
    cases kind <;> exact absurd ha Definition.noConfusion
  | «section» s bases => exact lists_section h ho
  | urls => exact lists_urls h ho hf hlog
  | value name => exact ⟨lists_value h, ho⟩
  | member optional name expr =>
    rw [apply] at hlog ⊢
    split at hlog
    · exact absurd hlog (List.cons_ne_nil _ _)
    · exact ⟨lists_member h, ho⟩
  | url method path => exact absurd ⟨method, path, rfl⟩ hurl
  | typedef name expr =>
    rw [apply] at hlog ⊢
    split at hlog
    · exact absurd hlog (List.cons_ne_nil _ _)
    · exact ⟨lists_define h fun a ha => absurd ha Definition.noConfusion, hasListed_of_ne rfl⟩

theorem lists_step {text : List Char} (h : Lists c.types listed) (ho : k.block.HasListed listed)
    (hf : Follows c k scope) (hlog : (step pos text c k).1.log = []) :
    Lists (step pos text c k).1.types (listed ++ ((scope.read? text).bind scope.url?).toList)
      ∧ (step pos text c k).2.block.HasListed
        (listed ++ ((scope.read? text).bind scope.url?).toList) := by
  have hread := hf.parse? text
  rw [step] at hlog ⊢
  split at hlog
  · exact absurd hlog (List.cons_ne_nil _ _)
  · next line hline =>
    rw [← hread, hline]
    exact lists_apply h ho hf hlog

end Compile

/-! ## Sessions -/

namespace Compilation

open Compile (Follows)

variable {file : String} {c : Compilation} {k : Cursor} {scope : Source.Scope}
variable {listed : List (String × Url)}

theorem lists_readLogical {lines : List (Nat × List Char)} (h : Lists c.types listed)
    (ho : k.block.HasListed listed) (hf : Follows c k scope)
    (hlog : (c.readLogical file lines k).1.log = []) :
    Lists (c.readLogical file lines k).1.types
      (listed ++ (Source.readings scope (lines.map Prod.snd)).filterMap
        fun (scope, line) => scope.url? line) := by
  induction lines generalizing c k scope listed with
  | nil => rwa [List.map_nil, Source.readings, List.filterMap_nil, List.append_nil]
  | cons line lines ih =>
    obtain ⟨n, text⟩ := line
    have hstep : (Compile.step ⟨file, n⟩ text c k).1.log = [] := by
      refine List.suffix_nil.1 ?_
      rw [← hlog]
      exact suffix_log_readLogical (k := (Compile.step ⟨file, n⟩ text c k).2)
    obtain ⟨hlists, hopen⟩ := Compile.lists_step h ho hf hstep
    have hrest := ih hlists hopen (hf.step text) hlog
    rw [List.append_assoc] at hrest
    rw [List.map_cons, Source.readings, List.filterMap_append]
    cases hread : scope.read? text with
    | none => rwa [hread] at hrest
    | some line =>
      rw [hread] at hrest
      have hhead : ([(scope, line)].filterMap fun (scope, line) => scope.url? line)
          = (scope.url? line).toList := by
        cases hu : scope.url? line <;> simp [hu]
      show Lists _ (listed ++ (([(scope, line)].filterMap _) ++ _))
      rwa [hhead]

end Compilation

/-- The logical lines of what is read. -/
def Request.texts : Request → List (List Char)
  | .text _ schema => (Source.logicalLines (Text.lines schema.toList)).map Prod.snd
  | .lines _ schema => (Source.logicalLines schema).map Prod.snd
  | .finish => []

/-- The URLs that the lines of a session list, each with its action. -/
def sessionUrls (requests : List Request) : List (String × Url) :=
  requests.flatMap fun request => Source.listedUrls request.texts

namespace Compilation

variable {c : Compilation} {listed : List (String × Url)}

theorem lists_serve {request : Request} (h : Lists c.types listed)
    (hlog : (c.serve request).log = []) :
    Lists (c.serve request).types (listed ++ Source.listedUrls request.texts) := by
  have hstart : ({} : Cursor).block.HasListed listed := Compile.hasListed_of_ne rfl
  cases request with
  | text file text => exact lists_readLogical h hstart (Compile.follows_start c) hlog
  | lines file lines => exact lists_readLogical h hstart (Compile.follows_start c) hlog
  | finish =>
    show Lists c.types (listed ++ [])
    rwa [List.append_nil]

theorem suffix_log_foldl (requests : List Request) (c : Compilation) :
    c.log <:+ (requests.foldl serve c).log := by
  induction requests generalizing c with
  | nil => exact List.suffix_rfl
  | cons request requests ih =>
    refine List.IsSuffix.trans ?_ (ih (c.serve request))
    exact serve_induct (P := fun c' => c.log <:+ c'.log)
      (fun _ _ _ _ h => h.trans Compile.suffix_log_step)
      (fun _ h => h.trans (List.suffix_append _ _)) request List.suffix_rfl

theorem lists_foldl {requests : List Request} (h : Lists c.types listed)
    (hlog : (requests.foldl serve c).log = []) :
    Lists (requests.foldl serve c).types (listed ++ sessionUrls requests) := by
  induction requests generalizing c listed with
  | nil => rwa [sessionUrls, List.flatMap_nil, List.append_nil]
  | cons request requests ih =>
    have hserve : (c.serve request).log = [] := by
      refine List.suffix_nil.1 ?_
      rw [← hlog]
      exact suffix_log_foldl requests (c.serve request)
    rw [sessionUrls, List.flatMap_cons, ← List.append_assoc]
    exact ih (lists_serve h hserve) hlog

/-- After a session without diagnostics an action has the URLs of its lines, in order and all of
them, and no two of them are the same. -/
theorem urls_after {requests : List Request} (hlog : (after requests).log = []) {key : String}
    {a : Action} (ha : (after requests).types.get? key = some (.action a)) :
    a.urls.getD [] = urlsFor key (sessionUrls requests) ∧ (a.urls.getD []).Nodup := by
  have hlists : Lists (after requests).types ([] ++ sessionUrls requests) :=
    lists_foldl lists_empty hlog
  rw [List.nil_append] at hlists
  have hurls := hlists.urls key a ha
  exact ⟨hurls, hurls ▸ hlists.nodup key a ha⟩

/-- A heading with nothing under it, a section, and URLs under the next heading and in another
input. -/
def visited : List Request :=
  [.text "a" "action A\n urls\n input\n  int i\n urls\n  GET /a\n  GET\n",
    .lines "b" ["action B".toList, " urls".toList, "  *".toList, "  POST /b c".toList], .finish]

def visitedUrls : List (String × Url) :=
  [("A", ⟨some "GET", some "/a"⟩), ("A", ⟨some "GET", none⟩), ("B", ⟨none, none⟩),
    ("B", ⟨some "POST", some "/b"⟩)]

theorem urls_after_visited :
    (after visited).log = [] ∧ sessionUrls visited = visitedUrls
      ∧ ∃ a, (after visited).types.get? "A" = some (.action a)
        ∧ a.urls.getD [] = [⟨some "GET", some "/a"⟩, ⟨some "GET", none⟩]
        ∧ (a.urls.getD []).Nodup := by
  have hlog : (after visited).log = [] := by decide +kernel
  have hurls : sessionUrls visited = visitedUrls := by decide +kernel
  obtain ⟨a, ha⟩ := Option.isSome_iff_exists.1
    (show ((after visited).action? "A").isSome = true by decide +kernel)
  have hget := Compile.action?_eq_some_iff.1 ha
  obtain ⟨hlisted, hnodup⟩ := urls_after hlog hget
  refine ⟨hlog, hurls, a, hget, ?_, hnodup⟩
  rw [hlisted, hurls]
  rfl

end Compilation

end SchemaLang
