import SchemaLang.Proofs.Source.Expressions

/-!
# Lines with type expressions

A typedef line is a word, an expression and a name; a member line is indented, and `optional` may
stand in front of the expression.  Any such line is read as what it says, with blanks of any kind
and number between its pieces and at its end.

For members two things have to be ruled out.  A type may itself be named `optional`: then no type
and name follow behind its name, so that the line is not taken for an optional member.  Sections and
the heading of URLs are tried first: they end in a closing bracket or in their own word, while a
member line has a gap and a name at its end.

* `Line.typedef?_append`, `Line.member?_append`: the lines by themselves.
* `Line.parse?_typedef`, `Line.parse?_member`: the lines among all others.
-/

namespace SchemaLang.Source

variable {cs rest expr : List Char} {e : TypeExpr} {name : String}

/-- A typedef of an expression. -/
inductive TypedefLine (expr : List Char) (name : String) : List Char → Prop
  | mk {gap gap' trail : List Char} (hg : Gap gap) (hg' : Gap gap') (ht : Blank trail) :
      TypedefLine expr name
        ("typedef".toList ++ (gap ++ (expr ++ (gap' ++ (name.toList ++ trail)))))

/-- A member with an expression, optional or not. -/
inductive MemberLine (expr : List Char) (name : String) : Bool → List Char → Prop
  | required {indent gap trail : List Char} (hi : Gap indent) (hg : Gap gap) (ht : Blank trail) :
      MemberLine expr name false (indent ++ (expr ++ (gap ++ (name.toList ++ trail))))
  | optional {indent gap gap' trail : List Char} (hi : Gap indent) (hg : Gap gap)
      (hg' : Gap gap') (ht : Blank trail) : MemberLine expr name true
        (indent ++ ("optional".toList ++ (gap ++ (expr ++ (gap' ++ (name.toList ++ trail))))))

theorem TypeExpr.Written.lettered (h : e.Written expr) (cs : List Char) :
    Lettered (expr ++ cs) := by
  cases h with
  | mk hn ho hc =>
    rw [List.append_assoc]
    exact hn.lettered _

theorem Lettered.solid (h : Lettered cs) : Solid cs := h.imp fun _ => isBlank_of_isAlpha

namespace Line

theorem typedef?_append (h : e.Written expr) (hn : IsName name) (hl : TypedefLine expr name cs) :
    typedef? cs = some (.typedef name e) := by
  cases hl with
  | mk hg hg' ht =>
    rw [typedef?, word?_append]
    simp only [Option.bind_eq_bind, Option.bind_some, blanks?_append hg (h.lettered _).solid,
      typed?_append h hg' hn ht.delimited, atEnd_iff.2 ht, if_true]

/-! ## Optional members -/

theorem typed?_eq_none (h : Starts (fun c => isNameStart c = false) cs) : typed? cs = none := by
  cases cs with
  | nil => rfl
  | cons c cs =>
    rw [typed?, typeExpr?, name?_eq_none (starts_cons.1 h)]
    rfl

/-- A name alone is a type without a name behind it. -/
theorem typed?_name {trail : List Char} (hn : IsName name) (ht : Blank trail) :
    typed? (name.toList ++ trail) = none := by
  have hskip : skipBlanks trail = [] := by
    rw [skipBlanks, List.dropWhile_eq_nil_iff]
    exact ht
  have hexpr : typeExpr? (name.toList ++ trail) = some (⟨name, [], .plain⟩, trail) := by
    have hw : TypeExpr.Written ⟨name, [], .plain⟩ (name.toList ++ ([] ++ [])) :=
      .mk hn .none .plain
    rw [List.append_nil, List.append_nil] at hw
    exact typeExpr?_append hw ht.delimited (by rw [hskip]; exact starts_nil)
  rw [typed?, hexpr]
  simp only [Option.bind_eq_bind, Option.bind_some]
  cases hb : blanks? trail with
  | none => rfl
  | some behind =>
    obtain ⟨gap, -, hrun⟩ := blanks?_eq_some_iff.1 hb
    rw [skipBlanks_eq_iff.2 ⟨gap, hrun⟩] at hskip
    rw [hskip]
    rfl

/-- Behind the name of a type stand brackets, or a name and nothing else. -/
theorem typed?_behind {clauses : List Clause} {container : Container}
    {own tail gap trail : List Char} (ho : InParentheses clauses own) (hc : container.Written tail)
    (hg : Gap gap) (hn : IsName name) (ht : Blank trail) :
    typed? (skipBlanks (own ++ (tail ++ (gap ++ (name.toList ++ trail))))) = none := by
  cases ho with
  | some hg₁ =>
    rw [List.append_assoc, List.cons_append, skipBlanks_append hg₁ (starts_cons.2 rfl)]
    exact typed?_eq_none (starts_cons.2 rfl)
  | none =>
    rw [List.nil_append]
    cases hc with
    | plain =>
      rw [List.nil_append, skipBlanks_append hg.2 (hn.solid trail)]
      exact typed?_name hn ht
    | array hg₁ hb =>
      rw [List.append_assoc, hb.skipBlanks_append rfl hg₁]
      exact typed?_eq_none (hb.starts (p := fun c => isNameStart c = false) rfl _)
    | dict hg₁ hb =>
      rw [List.append_assoc, hb.skipBlanks_append rfl hg₁]
      exact typed?_eq_none (hb.starts (p := fun c => isNameStart c = false) rfl _)
    | keyed hg₁ =>
      rw [List.append_assoc, List.cons_append, skipBlanks_append hg₁ (starts_cons.2 rfl)]
      exact typed?_eq_none (starts_cons.2 rfl)

/-- An expression and a name are not taken for an optional member, whatever the type is named. -/
theorem optional?_eq_none {gap trail : List Char} (h : e.Written expr) (hg : Gap gap)
    (hn : IsName name) (ht : Blank trail) :
    optional? (expr ++ (gap ++ (name.toList ++ trail))) = none := by
  rw [Option.eq_none_iff_forall_ne_some]
  intro typed hoptional
  simp only [optional?, Option.bind_eq_bind, Option.bind_eq_some_iff] at hoptional
  obtain ⟨behind, hword, start, hblanks, htyped⟩ := hoptional
  obtain ⟨gap', hne, hrun⟩ := blanks?_eq_some_iff.1 hblanks
  cases h with
  | @mk type clauses container own tail htype ho hc =>
    rw [List.append_assoc, List.append_assoc] at hword
    have hname := name?_append htype
      (ho.delimited.append (hc.delimited (hg.delimited (name.toList ++ trail))))
    -- A blank follows the keyword, so that it is the whole name of the type.
    have hgap : Gap gap' := ⟨hne, hrun.all⟩
    have hkeyword : name? ("optional".toList ++ behind) = some ("optional", behind) := by
      rw [hrun.eq]
      exact name?_append (by decide +kernel) (hgap.delimited start)
    rw [word?_eq_some_iff.1 hword, hkeyword] at hname
    obtain ⟨-, hbehind⟩ := Prod.mk.inj (Option.some.inj hname)
    rw [← skipBlanks_eq_iff.2 ⟨gap', hrun⟩, hbehind, typed?_behind ho hc hg hn ht] at htyped
    exact absurd htyped (by simp)

theorem member?_append {optional : Bool} (h : e.Written expr) (hn : IsName name)
    (hl : MemberLine expr name optional cs) : member? cs = some (.member optional name e) := by
  cases hl with
  | required hi hg ht =>
    rw [member?, blanks?_append hi (h.lettered _).solid]
    simp only [Option.bind_eq_bind, Option.bind_some, optional?_eq_none h hg hn ht,
      typed?_append h hg hn ht.delimited, atEnd_iff.2 ht, if_true]
  | @optional indent gap gap' trail hi hg hg' ht =>
    have hoptional : optional? ("optional".toList ++ (gap ++ (expr ++ (gap' ++ (name.toList
        ++ trail))))) = some ((e, name), trail) := by
      rw [optional?, word?_append]
      simp only [Option.bind_eq_bind, Option.bind_some, blanks?_append hg (h.lettered _).solid,
        typed?_append h hg' hn ht.delimited]
    have hskip : Solid ("optional".toList ++ (gap ++ (expr ++ (gap' ++ (name.toList ++ trail))))) :=
      starts_cons.2 rfl
    rw [member?, blanks?_append hi hskip]
    simp only [Option.bind_eq_bind, Option.bind_some, hoptional, atEnd_iff.2 ht, if_true]

/-! ## Among other lines -/

/-- The last character that is not a blank. -/
theorem eq_of_append_blank {a b t t' : List Char} {x y : Char} (h : a ++ x :: t = b ++ y :: t')
    (ht : Blank t) (ht' : Blank t') (hx : isBlank x = false) (hy : isBlank y = false) : x = y := by
  have hfilter := congrArg (fun cs => (cs.filter fun c => !isBlank c).getLast?) h
  simpa [List.filter_cons, hx, hy, ht.filter, ht'.filter] using hfilter

theorem exists_of_baseList? {names : List String} (h : baseList? cs = some (names, rest)) :
    ∃ before, cs = before ++ ')' :: rest := by
  simp only [baseList?, Option.bind_eq_bind, Option.bind_eq_some_iff] at h
  obtain ⟨start, hopen, ⟨_, behind⟩, hnames, after, hclose, he⟩ := h
  obtain ⟨rfl, rfl⟩ := Prod.mk.inj (Option.some.inj he)
  obtain ⟨gap, -, hstart⟩ := exists_blank start
  obtain ⟨gap', -, hbehind⟩ := exists_blank behind
  obtain ⟨text, -, htext⟩ := listed_of_separated (P := fun name text => text = name.toList)
    (fun hname => ⟨_, rfl, eq_of_name? hname⟩) hnames
  have hend : skipBlanks behind = ')' :: after := word?_eq_some_iff.1 hclose
  refine ⟨'(' :: (gap ++ (text ++ gap')), ?_⟩
  rw [word?_eq_some_iff.1 hopen, hstart, htext, hbehind, hend]
  simp

theorem exists_last (hn : IsName name) :
    ∃ front last, name.toList = front ++ [last] ∧ last ∉ delimiters := by
  have hne : name.toList ≠ [] := by
    obtain ⟨first, part, he, -⟩ := hn
    rw [he]
    exact List.cons_ne_nil _ _
  refine ⟨_, _, (List.dropLast_append_getLast hne).symm, ?_⟩
  exact hn.notMem_delimiters _ (List.getLast_mem hne)

/-- A line has not ended in front of a name. -/
theorem not_atEnd (hn : IsName name) (before cs : List Char) :
    ¬atEnd (before ++ (name.toList ++ cs)) = true := by
  intro h
  obtain ⟨first, tail, he, hfirst⟩ := hn.starts cs
  have hblank := atEnd_iff.1 h first (by simp [he])
  rw [isBlank_of_isAlpha hfirst] at hblank
  exact Bool.noConfusion hblank

/-- Bases end in a bracket, and where there are none the line has ended. -/
theorem bases?_eq_none {before trail : List Char} (hn : IsName name) (ht : Blank trail) :
    bases? (before ++ (name.toList ++ trail)) = none := by
  rw [bases?]
  split
  · next names rest hlist =>
    refine if_neg fun hend => ?_
    obtain ⟨gap, -, hgap⟩ := exists_blank (before ++ (name.toList ++ trail))
    obtain ⟨inner, hinner⟩ := exists_of_baseList? hlist
    obtain ⟨front, last, hlast, hmem⟩ := exists_last hn
    have hsolid : isBlank last = false := by
      rw [← Bool.not_eq_true]
      exact fun hblank => hmem (mem_delimiters_of_isBlank hblank)
    -- The last character would be the bracket, but it is that of the name.
    have he : (before ++ front) ++ last :: trail = (gap ++ inner) ++ ')' :: rest := by
      rw [hinner, hlast] at hgap
      simpa using hgap
    have hbracket := eq_of_append_blank he ht (atEnd_iff.1 hend) hsolid rfl
    exact hmem (hbracket ▸ by simp [delimiters])
  · exact if_neg (not_atEnd hn before trail)

/-- A word without blanks does not reach behind a gap. -/
theorem exists_behind {word start gap behind : List Char}
    (hw : word.all (fun c => !isBlank c) = true)
    (hg : Gap gap) (h : start ++ (gap ++ rest) = word ++ behind) :
    ∃ before, behind = before ++ rest := by
  rw [← List.append_assoc] at h
  rcases List.append_eq_append_iff.1 h with ⟨inner, hword, -⟩ | ⟨inner, -, hbehind⟩
  · obtain ⟨c, hc⟩ := List.exists_mem_of_ne_nil gap hg.1
    have hc' := List.all_eq_true.1 hw c (by simp [hword, hc])
    rw [hg.2 c hc] at hc'
    exact Bool.noConfusion hc'
  · exact ⟨inner, hbehind⟩

theorem exists_of_sectionName? {s : Section} (h : sectionName? cs = some (s, rest)) :
    cs = s.name.toList ++ rest := by
  obtain ⟨s', -, hs'⟩ := List.exists_of_findSome?_eq_some h
  obtain ⟨behind, hword, he⟩ := Option.map_eq_some_iff.1 hs'
  obtain ⟨rfl, rfl⟩ := Prod.mk.inj he
  exact word?_eq_some_iff.1 hword

section

variable {indent start gap trail : List Char}

theorem section?_eq_none (hi : Gap indent) (hs : Solid (start ++ (gap ++ (name.toList ++ trail))))
    (hg : Gap gap) (hn : IsName name) (ht : Blank trail) :
    Line.section? (indent ++ (start ++ (gap ++ (name.toList ++ trail)))) = none := by
  rw [section?, blanks?_append hi hs]
  simp only [Option.bind_eq_bind, Option.bind_some]
  cases hsection : sectionName? (start ++ (gap ++ (name.toList ++ trail))) with
  | none => rfl
  | some p =>
    obtain ⟨s, behind⟩ := p
    have hword : s.name.toList.all (fun c => !isBlank c) = true := by cases s <;> rfl
    obtain ⟨before, rfl⟩ := exists_behind hword hg (exists_of_sectionName? hsection)
    simp only [Option.bind_some, bases?_eq_none hn ht, Option.bind_none]

theorem urls?_eq_none (hi : Gap indent) (hs : Solid (start ++ (gap ++ (name.toList ++ trail))))
    (hg : Gap gap) (hn : IsName name) :
    urls? (indent ++ (start ++ (gap ++ (name.toList ++ trail)))) = none := by
  rw [urls?, blanks?_append hi hs]
  simp only [Option.bind_eq_bind, Option.bind_some]
  cases hword : word? "urls".toList (start ++ (gap ++ (name.toList ++ trail))) with
  | none => rfl
  | some behind =>
    obtain ⟨before, rfl⟩ := exists_behind rfl hg (word?_eq_some_iff.1 hword)
    rw [Option.bind_some]
    exact if_neg (not_atEnd hn before trail)

end

section

variable {indent : List Char}

theorem word?_indented (word : List Char) (hw : word.head?.any (fun c => !isBlank c) = true)
    (hi : Gap indent) (cs : List Char) : word? word (indent ++ cs) = none := by
  obtain ⟨b, indent, rfl⟩ := List.exists_cons_of_ne_nil hi.1
  have hb : isBlank b = true := hi.2 b List.mem_cons_self
  cases word with
  | nil => exact absurd hw (by simp)
  | cons w word =>
    rw [List.cons_append, word?, if_neg]
    rintro rfl
    simp [hb] at hw

theorem group?_indented (hi : Gap indent) (cs : List Char) : group? (indent ++ cs) = none := by
  rw [group?, word?_indented "group".toList rfl hi]
  rfl

theorem action?_indented (hi : Gap indent) (cs : List Char) : action? (indent ++ cs) = none := by
  rw [action?, word?_indented "action".toList rfl hi]
  rfl

theorem definition?_indented (hi : Gap indent) (cs : List Char) :
    definition? (indent ++ cs) = none := by
  rw [definition?, kind?, word?_indented "struct".toList rfl hi,
    word?_indented "union".toList rfl hi, word?_indented "enum".toList rfl hi]
  rfl

theorem comment?_indented (hi : Gap indent) (hcs : Lettered cs)
    (hne : cs ≠ []) : comment? (indent ++ cs) = none := by
  have hhash := hcs.ne (c := '#') rfl
  rw [comment?, skipBlanks_append hi.2 hcs.solid]
  split
  · exact absurd rfl hne
  · exact absurd rfl (starts_cons.1 hhash)
  · exact absurd rfl (starts_cons.1 hhash)
  · rfl

end

theorem parse?_typedef (h : e.Written expr) (hn : IsName name) (hl : TypedefLine expr name cs)
    (place : Place) : parse? place cs = some (.typedef name e) :=
  parse?_of_typedef? (typedef?_append h hn hl)

/-- Whatever the member says, the line is indented and ends in a gap and a name. -/
theorem exists_body {optional : Bool} (h : e.Written expr) (hl : MemberLine expr name optional cs) :
    ∃ indent start gap trail, Gap indent ∧ Gap gap ∧ Blank trail ∧ start ≠ []
      ∧ Lettered (start ++ (gap ++ (name.toList ++ trail)))
      ∧ cs = indent ++ (start ++ (gap ++ (name.toList ++ trail))) := by
  cases hl with
  | @required indent gap trail hi hg ht =>
    refine ⟨indent, expr, gap, trail, hi, hg, ht, ?_, h.lettered _, rfl⟩
    cases h with
    | mk hn ho hc =>
      obtain ⟨first, part, he, -⟩ := hn
      simp [he]
  | @optional indent gap gap' trail hi hg hg' ht =>
    refine ⟨indent, "optional".toList ++ (gap ++ expr), gap', trail, hi, hg', ht, ?_, ?_, ?_⟩
    · simp
    · exact starts_cons.2 rfl
    · simp only [List.append_assoc]

theorem parse?_member {optional : Bool} (h : e.Written expr) (hn : IsName name)
    (hl : MemberLine expr name optional cs) {place : Place} (hmembers : place.members = true)
    (hvalues : place.values = false) : parse? place cs = some (.member optional name e) := by
  have hmember := member?_append h hn hl
  obtain ⟨indent, start, gap, trail, hi, hg, ht, hne, hlettered, rfl⟩ := exists_body h hl
  rw [parse?, comment?_indented hi hlettered (by simp [hne]), group?_indented hi,
    action?_indented hi, definition?_indented hi, section?_eq_none hi hlettered.solid hg hn ht,
    urls?_eq_none hi hlettered.solid hg hn, hvalues, hmembers, hmember]
  cases place.sections <;> rfl

end Line

end SchemaLang.Source
