import SchemaLang.Proofs.Source.Clauses

/-!
# Texts of type expressions

`TypeExpr.Written` says how a type expression is written: a name, clauses in parentheses, and the
brackets of an array, of a dict or of a dict with a key type, with blanks wherever two pieces meet.
Every text of this form is read as the expression that it was written from, however many blanks
there are.

No scanner looks back, so each has to stop where its piece ends.  Behind a name or a number stands a
delimiter (`Delimited`); behind an expression stand blanks and a name, which begins with none of the
brackets that an expression could go on with.

* `name?_append` to `clause?_append`: names, numerals, operators and clauses before a delimiter.
* `separated_append`: items with commas, where no comma follows.
* `clauses?_append`, `ownClauses_append`, `container_append`: clauses in brackets.
* `typeExpr?_append`, `Line.typed?_append`: an expression, and a name behind it.
-/

namespace SchemaLang.Source

variable {cs rest : List Char}

/-! ## How a text begins -/

/-- The first character, if there is one, is of a kind. -/
def Starts (p : Char → Prop) (cs : List Char) : Prop := ∀ c ∈ cs.head?, p c

section

variable {p q : Char → Prop} {a b : List Char}

@[simp] theorem starts_nil : Starts p [] := by simp [Starts]

@[simp] theorem starts_cons {c : Char} : Starts p (c :: cs) ↔ p c := by simp [Starts]

theorem Starts.imp (h : Starts p cs) (hpq : ∀ c, p c → q c) : Starts q cs :=
  fun c hc => hpq c (h c hc)

theorem Starts.append (ha : Starts p a) (hb : Starts p b) : Starts p (a ++ b) := by
  cases a with
  | nil => exact hb
  | cons c a => exact starts_cons.2 (starts_cons.1 ha)

theorem Starts.append_of_ne_nil (ha : Starts p a) (hne : a ≠ []) : Starts p (a ++ b) := by
  obtain ⟨c, a, rfl⟩ := List.exists_cons_of_ne_nil hne
  exact starts_cons.2 (starts_cons.1 ha)

end

theorem Blank.starts {p : Char → Prop} {gap : List Char} (h : Blank gap) (hspace : p ' ')
    (htab : p '\t') : Starts p gap := by
  intro c hc
  rcases eq_of_isBlank (h.head? c hc) with rfl | rfl
  · exact hspace
  · exact htab

/-- The first character is not a blank. -/
abbrev Solid (cs : List Char) : Prop := Starts (fun c => isBlank c = false) cs

theorem skipBlanks_append {gap : List Char} (hg : Blank gap) (hcs : Solid cs) :
    skipBlanks (gap ++ cs) = cs :=
  skipBlanks_eq_iff.2 ⟨gap, rfl, hg, hcs⟩

theorem skipBlanks_solid (hcs : Solid cs) : skipBlanks cs = cs :=
  skipBlanks_eq_iff.2 ⟨[], rfl, by simp, hcs⟩

theorem blanks?_append {gap : List Char} (hg : Gap gap) (hcs : Solid cs) :
    blanks? (gap ++ cs) = some cs :=
  blanks?_eq_some_iff.2 ⟨gap, hg.1, rfl, hg.2, hcs⟩

theorem word?_append (word cs : List Char) : word? word (word ++ cs) = some cs :=
  word?_eq_some_iff.2 rfl

theorem word?_singleton (c : Char) (cs : List Char) : word? [c] (c :: cs) = some cs :=
  word?_append [c] cs

/-! ## Names and numbers -/

/-- What may stand behind a name or a number. -/
def delimiters : List Char := [' ', '\t', ',', ':', '(', ')', '[', ']', '\x7b', '\x7d']

theorem mem_delimiters_of_isBlank {c : Char} (h : isBlank c = true) : c ∈ delimiters := by
  rcases eq_of_isBlank h with rfl | rfl <;> simp [delimiters]

abbrev Delimited (cs : List Char) : Prop := Starts (fun c => c ∈ delimiters) cs

theorem Blank.delimited {gap : List Char} (h : Blank gap) : Delimited gap :=
  h.starts (by decide) (by decide)

theorem Gap.delimited {gap : List Char} (h : Gap gap) (cs : List Char) : Delimited (gap ++ cs) :=
  h.2.delimited.append_of_ne_nil h.1

theorem isNamePart_of_mem_delimiters : ∀ c ∈ delimiters, isNamePart c = false := by
  have hall : delimiters.all (fun c => !isNamePart c) = true := by decide +kernel
  simpa using hall

theorem isDigit_of_mem_delimiters : ∀ c ∈ delimiters, c.isDigit = false := by
  have hall : delimiters.all (fun c => !c.isDigit) = true := by decide
  simpa using hall

/-- A letter, and letters, numbers and underscores after it. -/
def IsName (name : String) : Prop :=
  ∃ first part, name.toList = first :: part ∧ isNameStart first = true
    ∧ ∀ c ∈ part, isNamePart c = true

instance (name : String) : Decidable (IsName name) :=
  decidable_of_iff
    (name.toList.head?.any isNameStart = true ∧ name.toList.tail.all isNamePart = true) <| by
    rw [IsName]
    cases name.toList with
    | nil => simp
    | cons first part => simp

theorem IsName.starts {name : String} (h : IsName name) (cs : List Char) :
    ∃ first tail, name.toList ++ cs = first :: tail ∧ isNameStart first = true := by
  obtain ⟨first, part, he, hfirst, -⟩ := h
  rw [he]
  exact ⟨first, part ++ cs, rfl, hfirst⟩

/-- The first character can begin a name, so it is none of the brackets. -/
abbrev Lettered (cs : List Char) : Prop := Starts (fun c => isNameStart c = true) cs

theorem Lettered.ne (h : Lettered cs) {c : Char} (hc : isNameStart c = false) :
    Starts (fun x => x ≠ c) cs := by
  refine h.imp ?_
  rintro x hx rfl
  rw [hc] at hx
  exact Bool.noConfusion hx

theorem IsName.lettered {name : String} (h : IsName name) (cs : List Char) :
    Lettered (name.toList ++ cs) := by
  obtain ⟨first, tail, he, hfirst⟩ := h.starts cs
  rw [he]
  exact starts_cons.2 hfirst

theorem IsName.solid {name : String} (h : IsName name) (cs : List Char) :
    Solid (name.toList ++ cs) :=
  (h.lettered cs).imp fun _ => isBlank_of_isAlpha

theorem name?_append {name : String} (h : IsName name) (hr : Delimited rest) :
    name? (name.toList ++ rest) = some (name, rest) := by
  obtain ⟨first, part, he, hfirst, hpart⟩ := h
  refine name?_eq_some_iff.2 ⟨first, part ++ rest, part, by rw [he]; rfl, hfirst, ?_, ?_⟩
  · exact ⟨rfl, hpart, hr.imp isNamePart_of_mem_delimiters⟩
  · rw [← he, String.ofList_toList]

theorem IsName.notMem_delimiters {name : String} (h : IsName name) :
    ∀ c ∈ name.toList, c ∉ delimiters := by
  obtain ⟨first, part, he, hfirst, hpart⟩ := h
  have hall : ∀ c ∈ name.toList, isNamePart c = true := by
    rw [he]
    refine List.forall_mem_cons.2 ⟨?_, hpart⟩
    rw [isNamePart, Text.isLetter_of_isAlpha hfirst]
    rfl
  intro c hc hd
  exact absurd (hall c hc) (by simp [isNamePart_of_mem_delimiters c hd])

theorem name?_eq_none {c : Char} (hc : isNameStart c = false) : name? (c :: cs) = none := by
  rw [name?, hc]
  rfl

theorem digits?_append {digits : List Char} (h : Digits digits)
    (hr : Starts (fun c => c.isDigit = false) rest) :
    digits? (digits ++ rest) = some (digits, rest) :=
  digits?_eq_some_iff.2 ⟨h.1, rfl, h.2, hr⟩

theorem places_point {fraction : List Char} (h : Digits fraction)
    (hr : Starts (fun c => c.isDigit = false) rest) :
    places ('.' :: (fraction ++ rest)) = ('.' :: fraction, rest) := by
  rw [places, digits?_append h hr]

theorem places_none (hr : Starts (fun c => c ≠ '.') rest) : places rest = ([], rest) := by
  cases rest with
  | nil => rfl
  | cons c rest =>
    unfold places
    split
    · next h => exact absurd (List.cons.inj h).1 (starts_cons.1 hr)
    · rfl

theorem number?_signed (negative : Bool) {text : List Char}
    (hd : ∃ c tail, text ++ rest = c :: tail ∧ c.isDigit = true)
    (h : unsignedNumber? (text ++ rest) = some (text, rest)) :
    number? (Number.signed negative text ++ rest) = some (Number.signed negative text, rest) := by
  cases negative with
  | true =>
    show (unsignedNumber? (text ++ rest)).map _ = _
    rw [h]
    rfl
  | false =>
    show number? (text ++ rest) = some (text, rest)
    unfold number?
    split
    · next hminus =>
      obtain ⟨c, tail, he, hc⟩ := hd
      rw [hminus] at he
      obtain ⟨rfl, -⟩ := List.cons.inj he
      exact absurd hc (by decide)
    · exact h

theorem number?_append {text : List Char} (h : Numeral text) (hr : Delimited rest) :
    number? (text ++ rest) = some (text, rest) := by
  have hdigit : Starts (fun c => c.isDigit = false) rest := hr.imp isDigit_of_mem_delimiters
  have hpoint : Starts (fun c => c ≠ '.') rest := hr.imp (by simp [delimiters])
  cases h with
  | @whole negative whole hw =>
    refine number?_signed negative (hw.starts rest) ?_
    rw [unsignedNumber?, digits?_append hw hdigit]
    simp only [Option.map_some, places_none hpoint, List.append_nil]
  | @point negative whole fraction hw hf =>
    have he : whole ++ '.' :: fraction ++ rest = whole ++ '.' :: (fraction ++ rest) := by simp
    refine number?_signed negative (he ▸ hw.starts _) ?_
    rw [he, unsignedNumber?, digits?_append hw (starts_cons.2 (by decide))]
    simp only [Option.map_some, places_point hf hdigit]

/-! ## Clauses -/

/-- An operator is not taken for a longer one. -/
theorem comparison?_append (c : Comparison) (hr : Starts (fun x => x ≠ '=') rest) :
    comparison? (c.operator.toList ++ rest) = some (c, rest) := by
  cases rest with
  | nil => cases c <;> rfl
  | cons x rest =>
    have hx : '=' ≠ x := (hr x rfl).symm
    cases c <;> simp [Comparison.operator, comparison?, word?, hx, Comparison.ofOperator?,
      Comparison.all]

theorem Numeral.starts {text : List Char} (h : Numeral text) (cs : List Char) :
    Starts (fun c => c = '-' ∨ c.isDigit = true) (text ++ cs) := by
  have hdigits : ∀ {whole : List Char}, Digits whole → ∀ tail,
      Starts (fun c => c = '-' ∨ c.isDigit = true) (whole ++ tail) := by
    intro whole hw tail
    obtain ⟨c, _, he, hc⟩ := hw.starts tail
    rw [he]
    exact starts_cons.2 (.inr hc)
  cases h with
  | whole negative hw =>
    cases negative with
    | true => exact starts_cons.2 (.inl rfl)
    | false => exact hdigits hw cs
  | point negative hw hf =>
    cases negative with
    | true => exact starts_cons.2 (.inl rfl)
    | false =>
      rw [Number.signed, if_neg Bool.false_ne_true, List.append_assoc]
      exact hdigits hw _

theorem Numeral.solid {text : List Char} (h : Numeral text) (cs : List Char) :
    Solid (text ++ cs) := by
  refine (h.starts cs).imp fun c hc => ?_
  rw [← Bool.not_eq_true]
  intro hblank
  rcases eq_of_isBlank hblank with rfl | rfl <;> exact absurd hc (by decide)

/-- No operator goes on with what it is compared with. -/
theorem Numeral.operand {gap text : List Char} (hg : Blank gap) (h : Numeral text)
    (cs : List Char) : Starts (fun c => c ≠ '=') (gap ++ (text ++ cs)) := by
  refine (hg.starts (by decide) (by decide)).append ((h.starts cs).imp ?_)
  rintro _ hc rfl
  exact absurd hc (by decide)

theorem Clause.Written.solid {clause : Clause} {text : List Char} (h : clause.Written text)
    (cs : List Char) : Solid (text ++ cs) := by
  cases h with
  | nullable => exact starts_cons.2 rfl
  | @number c _ _ hg hn => cases c <;> exact starts_cons.2 rfl
  | length hg hg' hd => exact starts_cons.2 rfl

theorem clause?_append {clause : Clause} {text : List Char} (h : clause.Written text)
    (hr : Delimited rest) : clause? (text ++ rest) = some (clause, rest) := by
  cases h with
  | nullable =>
    rw [clause?, nullableClause?, word?_append]
    rfl
  | @number c gap text hg hn =>
    rw [List.append_assoc, List.append_assoc]
    have hnullable : nullableClause? (c.operator.toList ++ (gap ++ (text ++ rest))) = none := by
      cases c <;> rfl
    have hlength : lengthClause? (c.operator.toList ++ (gap ++ (text ++ rest))) = none := by
      cases c <;> rfl
    have hnumber : numberClause? (c.operator.toList ++ (gap ++ (text ++ rest)))
        = some (.number c text, rest) := by
      rw [numberClause?, comparison?_append c (hn.operand hg rest)]
      simp only [Option.bind_eq_bind, Option.bind_some, skipBlanks_append hg (hn.solid rest),
        number?_append hn hr]
      rfl
    rw [clause?, hnullable, hlength, hnumber]
    rfl
  | @length c gap gap' digits hg hg' hd =>
    simp only [List.append_assoc]
    have hn : Numeral digits := .whole false hd
    have hoperator : Solid (c.operator.toList ++ (gap' ++ (digits ++ rest))) := by
      cases c <;> exact starts_cons.2 rfl
    have hlength : lengthClause? ("len".toList ++ (gap ++ (c.operator.toList
        ++ (gap' ++ (digits ++ rest))))) = some (.length c digits, rest) := by
      rw [lengthClause?, word?_append]
      simp only [Option.bind_eq_bind, Option.bind_some, skipBlanks_append hg hoperator,
        comparison?_append c (hn.operand hg' rest), skipBlanks_append hg' (hn.solid rest),
        digits?_append hd (hr.imp isDigit_of_mem_delimiters)]
      rfl
    have hnullable : nullableClause? ("len".toList ++ (gap ++ (c.operator.toList
        ++ (gap' ++ (digits ++ rest))))) = none := rfl
    rw [clause?, hnullable, hlength]
    rfl

/-! ## Lists with commas -/

section

variable {α : Type} {item : List Char → Option (α × List Char)} {P : α → List Char → Prop}

theorem Listed.solid {as : List α} {text : List Char}
    (hsolid : ∀ {a text}, P a text → ∀ cs, Solid (text ++ cs)) (h : Listed P as text)
    (cs : List Char) : Solid (text ++ cs) := by
  cases h with
  | one h => exact hsolid h cs
  | cons h hg hg' hr =>
    rw [List.append_assoc]
    exact hsolid h _

theorem Listed.length_le {as : List α} {text : List Char} (h : Listed P as text) :
    as.length ≤ text.length + 1 := by
  induction h with
  | one h => simp
  | cons h hg hg' hr ih =>
    simp only [List.length_cons, List.length_append]
    omega

theorem append_comma (text gap gap' more rest : List Char) :
    text ++ (gap ++ ',' :: (gap' ++ more)) ++ rest
      = text ++ (gap ++ ',' :: (gap' ++ (more ++ rest))) := by
  simp only [List.append_assoc, List.cons_append]

theorem Blank.delimited_comma {gap : List Char} (h : Blank gap) (cs : List Char) :
    Delimited (gap ++ ',' :: cs) :=
  h.delimited.append (starts_cons.2 (by simp [delimiters]))

theorem further_nil (hr : Starts (fun c => c ≠ ',') (skipBlanks rest)) (count : Nat) :
    further item count rest = ([], rest) := by
  cases count with
  | zero => rfl
  | succ count =>
    rw [further]
    split
    · next h =>
      rw [h] at hr
      exact absurd rfl (starts_cons.1 hr)
    · rfl

/-- Every comma is followed by an item.  The induction is on the list, with the count going down. -/
theorem further_listed
    (hitem : ∀ {a text rest}, P a text → Delimited rest → item (text ++ rest) = some (a, rest))
    (hsolid : ∀ {a text}, P a text → ∀ cs, Solid (text ++ cs)) {as : List α} {text : List Char}
    (h : Listed P as text) (hr : Delimited rest)
    (hlast : Starts (fun c => c ≠ ',') (skipBlanks rest)) {gap gap' : List Char} (hg : Blank gap)
    (hg' : Blank gap') {count : Nat} (hcount : as.length ≤ count) :
    further item count (gap ++ ',' :: (gap' ++ (text ++ rest))) = (as, rest) := by
  induction h generalizing gap gap' count with
  | @one a text ha =>
    cases count with
    | zero => exact absurd hcount (by simp)
    | succ count =>
      rw [further, skipBlanks_append hg (starts_cons.2 rfl)]
      simp only [skipBlanks_append hg' (hsolid ha rest), hitem ha hr, further_nil hlast]
  | @cons a as text gap₁ gap₂ more ha hg₁ hg₂ hmore ih =>
    cases count with
    | zero => exact absurd hcount (by simp)
    | succ count =>
      rw [further, skipBlanks_append hg (starts_cons.2 rfl), append_comma]
      simp only [skipBlanks_append hg' (hsolid ha _), hitem ha (hg₁.delimited_comma _),
        ih hg₁ hg₂ (Nat.le_of_succ_le_succ hcount)]

theorem separated_append
    (hitem : ∀ {a text rest}, P a text → Delimited rest → item (text ++ rest) = some (a, rest))
    (hsolid : ∀ {a text}, P a text → ∀ cs, Solid (text ++ cs)) {as : List α} {text : List Char}
    (h : Listed P as text) (hr : Delimited rest)
    (hlast : Starts (fun c => c ≠ ',') (skipBlanks rest)) :
    separated item (text ++ rest) = some (as, rest) := by
  cases h with
  | one ha =>
    rw [separated, hitem ha hr, Option.map_some]
    simp only [further_nil hlast]
  | @cons a as text gap gap' more ha hg hg' hmore =>
    -- There are no more items than commas, and these are in the rest, whose length is the count.
    have hcount : as.length ≤ (gap ++ ',' :: (gap' ++ (more ++ rest))).length := by
      have := hmore.length_le
      simp only [List.length_append, List.length_cons]
      omega
    rw [append_comma, separated, hitem ha (hg.delimited_comma _), Option.map_some]
    simp only [further_listed hitem hsolid hmore hr hlast hg hg' hcount]

end

/-! ## Clauses in brackets -/

/-- Clauses between brackets, perhaps none. -/
inductive Between (opening closing : Char) : List Clause → List Char → Prop
  | none {gap : List Char} (hg : Blank gap) :
      Between opening closing [] (opening :: (gap ++ [closing]))
  | some {clauses : List Clause} {gap gap' text : List Char} (hg : Blank gap)
      (hl : Listed Clause.Written clauses text) (hg' : Blank gap') :
      Between opening closing clauses (opening :: (gap ++ (text ++ (gap' ++ [closing]))))

def closings : List Char := [')', ']', '\x7d']

/-- A closing bracket ends what stands before it and is no clause itself. -/
theorem closing_ends {closing : Char} (hc : closing ∈ closings) :
    closing ∈ delimiters ∧ isBlank closing = false ∧ closing ≠ ','
      ∧ ∀ rest, clause? (closing :: rest) = none := by
  simp only [closings, List.mem_cons, List.not_mem_nil, or_false] at hc
  rcases hc with rfl | rfl | rfl <;>
    exact ⟨by simp [delimiters], rfl, by decide, fun _ => rfl⟩

section

variable {opening closing : Char} {clauses : List Clause} {text : List Char}

theorem Between.starts {p : Char → Prop} (h : Between opening closing clauses text)
    (hp : p opening) (cs : List Char) : Starts p (text ++ cs) := by
  cases h with
  | none hg => exact starts_cons.2 hp
  | some hg hl hg' => exact starts_cons.2 hp

theorem Between.ne (h : Between opening closing clauses text) {c : Char} (hc : opening ≠ c)
    (cs : List Char) : Starts (fun x => x ≠ c) (text ++ cs) :=
  h.starts hc cs

theorem Between.skipBlanks_append (h : Between opening closing clauses text)
    (hblank : isBlank opening = false) {gap : List Char} (hg : Blank gap) (cs : List Char) :
    skipBlanks (gap ++ (text ++ cs)) = text ++ cs :=
  Source.skipBlanks_append hg (h.starts hblank cs)

theorem clauses?_append (h : Between opening closing clauses text) (hc : closing ∈ closings)
    (rest : List Char) : clauses? opening closing (text ++ rest) = some (clauses, rest) := by
  obtain ⟨hdelimiter, hblank, hcomma, hclause⟩ := closing_ends hc
  have hclosing : Solid (closing :: rest) := starts_cons.2 hblank
  cases h with
  | @none gap hg =>
    -- No clause begins with the closing bracket, so that the list comes out empty.
    have hnone : separated clause? (closing :: rest) = none := by rw [separated, hclause]; rfl
    rw [clauses?, List.cons_append, List.append_assoc, word?_singleton]
    simp only [Option.bind_eq_bind, Option.bind_some, List.singleton_append,
      skipBlanks_append hg hclosing, hnone, Option.getD_none, skipBlanks_solid hclosing,
      word?_singleton]
    rfl
  | @some clauses gap gap' text hg hl hg' =>
    -- The bracket ends the last clause and is no comma.
    have hends : Delimited (gap' ++ closing :: rest) :=
      hg'.delimited.append (starts_cons.2 hdelimiter)
    have hlast : Starts (fun c => c ≠ ',') (skipBlanks (gap' ++ closing :: rest)) := by
      rw [skipBlanks_append hg' hclosing]
      exact starts_cons.2 hcomma
    have hlisted : separated clause? (text ++ (gap' ++ closing :: rest))
        = Option.some (clauses, gap' ++ closing :: rest) :=
      separated_append clause?_append Clause.Written.solid hl hends hlast
    have hsolid : Solid (text ++ (gap' ++ closing :: rest)) :=
      hl.solid Clause.Written.solid _
    rw [clauses?, List.cons_append, List.append_assoc, List.append_assoc, List.append_assoc,
      word?_singleton]
    simp only [Option.bind_eq_bind, Option.bind_some, List.singleton_append,
      skipBlanks_append hg hsolid, hlisted, Option.getD_some, skipBlanks_append hg' hclosing,
      word?_singleton]
    rfl

theorem clauses?_eq_none (h : Starts (fun c => c ≠ opening) cs) :
    clauses? opening closing cs = none := by
  cases cs with
  | nil => rfl
  | cons c cs =>
    have hc : opening ≠ c := (starts_cons.1 h).symm
    rw [clauses?, word?, if_neg hc]
    rfl

end

theorem InParentheses.delimited {clauses : List Clause} {own : List Char}
    (h : InParentheses clauses own) : Delimited own := by
  cases h with
  | none => exact starts_nil
  | some hg => exact hg.delimited.append (starts_cons.2 (by simp [delimiters]))

theorem ownClauses_append {clauses : List Clause} {own : List Char}
    (h : InParentheses clauses own) (hr : Starts (fun c => c ≠ '(') (skipBlanks rest)) :
    ownClauses (own ++ rest) = (clauses, rest) := by
  cases h with
  | none => rw [List.nil_append, ownClauses, clauses?_eq_none hr]
  | @some clauses gap gap' gap'' text hg hg' hl hg'' =>
    have hclauses := clauses?_append (Between.some hg' hl hg'' : Between '(' ')' _ _)
      (by simp [closings]) rest
    rw [List.cons_append] at hclauses
    rw [ownClauses, List.append_assoc, List.cons_append, skipBlanks_append hg (starts_cons.2 rfl),
      hclauses]
    cases hl <;> rfl

/-! ## Containers and type expressions -/

/-- What is written behind a type to make a container of it. -/
inductive Container.Written : Container → List Char → Prop
  | plain : Written .plain []
  | array {clauses : List Clause} {gap text : List Char} (hg : Blank gap)
      (hb : Between '[' ']' clauses text) : Written (.array clauses) (gap ++ text)
  | dict {clauses : List Clause} {gap text : List Char} (hg : Blank gap)
      (hb : Between '\x7b' '\x7d' clauses text) : Written (.dict clauses) (gap ++ text)
  | keyed {value : String} {valueClauses clauses : List Clause}
      {gap gap' own gap'' text : List Char} (hg : Blank gap) (hg' : Blank gap')
      (hn : IsName value) (ho : InParentheses valueClauses own) (hg'' : Blank gap'')
      (hb : Between '\x7b' '\x7d' clauses text) : Written (.keyed value valueClauses clauses)
        (gap ++ ':' :: (gap' ++ (value.toList ++ (own ++ (gap'' ++ text)))))

/-- What a type expression is written as. -/
inductive TypeExpr.Written : TypeExpr → List Char → Prop
  | mk {name : String} {clauses : List Clause} {container : Container} {own tail : List Char}
      (hn : IsName name) (ho : InParentheses clauses own) (hc : container.Written tail) :
      Written { name, clauses, container } (name.toList ++ (own ++ tail))

theorem array?_eq_none (h : Starts (fun c => c ≠ '[') (skipBlanks cs)) : array? cs = none := by
  rw [array?, clauses?_eq_none h]
  rfl

theorem dict?_eq_none (h : Starts (fun c => c ≠ '\x7b') (skipBlanks cs)) : dict? cs = none := by
  rw [dict?, clauses?_eq_none h]
  rfl

theorem keyed?_eq_none (h : Starts (fun c => c ≠ ':') (skipBlanks cs)) : keyed? cs = none := by
  rw [keyed?]
  cases he : skipBlanks cs with
  | nil => rfl
  | cons c tail =>
    rw [he, starts_cons] at h
    rw [word?, if_neg h.symm]
    rfl

section

variable {clauses valueClauses : List Clause} {value : String} {gap gap' own gap'' text : List Char}

theorem array?_append (hg : Blank gap) (hb : Between '[' ']' clauses text) (rest : List Char) :
    array? (gap ++ (text ++ rest)) = some (.array clauses, rest) := by
  rw [array?, hb.skipBlanks_append rfl hg, clauses?_append hb (by simp [closings])]
  rfl

theorem dict?_append (hg : Blank gap) (hb : Between '\x7b' '\x7d' clauses text)
    (rest : List Char) : dict? (gap ++ (text ++ rest)) = some (.dict clauses, rest) := by
  rw [dict?, hb.skipBlanks_append rfl hg, clauses?_append hb (by simp [closings])]
  rfl

theorem keyed?_append (hg : Blank gap) (hg' : Blank gap') (hn : IsName value)
    (ho : InParentheses valueClauses own) (hg'' : Blank gap'')
    (hb : Between '\x7b' '\x7d' clauses text) (rest : List Char) :
    keyed? (gap ++ ':' :: (gap' ++ (value.toList ++ (own ++ (gap'' ++ (text ++ rest))))))
      = some (.keyed value valueClauses clauses, rest) := by
  have hskip := hb.skipBlanks_append rfl hg'' rest
  have hbraces : Delimited (gap'' ++ (text ++ rest)) :=
    hg''.delimited.append (hb.starts (by simp [delimiters]) rest)
  have hname : name? (value.toList ++ (own ++ (gap'' ++ (text ++ rest))))
      = some (value, own ++ (gap'' ++ (text ++ rest))) :=
    name?_append hn (ho.delimited.append hbraces)
  have hown : ownClauses (own ++ (gap'' ++ (text ++ rest)))
      = (valueClauses, gap'' ++ (text ++ rest)) :=
    ownClauses_append ho (by rw [hskip]; exact hb.ne (by decide) rest)
  rw [keyed?, skipBlanks_append hg (starts_cons.2 rfl), word?_singleton]
  simp only [Option.bind_eq_bind, Option.bind_some, skipBlanks_append hg' (hn.solid _), hname,
    hown, hskip, clauses?_append hb (by simp [closings])]
  rfl

end

/-- A container is told by the first bracket, and where there is none a name follows. -/
theorem container_append {container : Container} {text : List Char} (h : container.Written text)
    (hr : Lettered (skipBlanks rest)) :
    Source.container (text ++ rest) = (container, rest) := by
  cases h with
  | plain =>
    rw [List.nil_append, Source.container, array?_eq_none (hr.ne rfl), keyed?_eq_none (hr.ne rfl),
      dict?_eq_none (hr.ne rfl)]
    rfl
  | array hg hb =>
    rw [List.append_assoc, Source.container, array?_append hg hb]
    rfl
  | dict hg hb =>
    have hskip := hb.skipBlanks_append rfl hg rest
    rw [List.append_assoc, Source.container,
      array?_eq_none (by rw [hskip]; exact hb.ne (by decide) rest),
      keyed?_eq_none (by rw [hskip]; exact hb.ne (by decide) rest), dict?_append hg hb]
    rfl
  | @keyed value valueClauses clauses gap gap' own gap'' text hg hg' hn ho hg'' hb =>
    have hcolon : ∀ tail, skipBlanks (gap ++ ':' :: tail) = ':' :: tail :=
      fun tail => skipBlanks_append hg (starts_cons.2 rfl)
    simp only [List.append_assoc, List.cons_append]
    rw [Source.container, array?_eq_none (by rw [hcolon]; exact starts_cons.2 (by decide)),
      keyed?_append hg hg' hn ho hg'' hb]
    rfl

theorem Container.Written.delimited {container : Container} {text : List Char}
    (h : container.Written text) (hr : Delimited rest) : Delimited (text ++ rest) := by
  cases h with
  | plain => exact hr
  | array hg hb =>
    rw [List.append_assoc]
    exact hg.delimited.append (hb.starts (by simp [delimiters]) rest)
  | dict hg hb =>
    rw [List.append_assoc]
    exact hg.delimited.append (hb.starts (by simp [delimiters]) rest)
  | keyed hg =>
    rw [List.append_assoc]
    exact hg.delimited.append (starts_cons.2 (by simp [delimiters]))

/-- The clauses in front of a container stop there. -/
theorem Container.Written.ne {container : Container} {text : List Char}
    (h : container.Written text) (hr : Lettered (skipBlanks rest)) :
    Starts (fun c => c ≠ '(') (skipBlanks (text ++ rest)) := by
  cases h with
  | plain => exact hr.ne rfl
  | array hg hb =>
    rw [List.append_assoc, hb.skipBlanks_append rfl hg]
    exact hb.ne (by decide) rest
  | dict hg hb =>
    rw [List.append_assoc, hb.skipBlanks_append rfl hg]
    exact hb.ne (by decide) rest
  | keyed hg =>
    rw [List.append_assoc, List.cons_append, skipBlanks_append hg (starts_cons.2 rfl)]
    exact starts_cons.2 (by decide)

/-- An expression is read to its end, where blanks and a name follow, or nothing. -/
theorem typeExpr?_append {e : TypeExpr} {text : List Char} (h : e.Written text)
    (hd : Delimited rest) (hr : Lettered (skipBlanks rest)) :
    typeExpr? (text ++ rest) = some (e, rest) := by
  cases h with
  | @mk name clauses container own tail hn ho hc =>
    have hname : name? (name.toList ++ (own ++ (tail ++ rest)))
        = some (name, own ++ (tail ++ rest)) :=
      name?_append hn (ho.delimited.append (hc.delimited hd))
    rw [List.append_assoc, List.append_assoc, typeExpr?, hname]
    simp only [Option.map_some, ownClauses_append ho (hc.ne hr), container_append hc hr]

theorem Line.typed?_append {e : TypeExpr} {name : String} {text gap : List Char}
    (h : e.Written text) (hg : Gap gap) (hn : IsName name) (hr : Delimited rest) :
    typed? (text ++ (gap ++ (name.toList ++ rest))) = some ((e, name), rest) := by
  have hskip : skipBlanks (gap ++ (name.toList ++ rest)) = name.toList ++ rest :=
    skipBlanks_append hg.2 (hn.solid rest)
  have hexpr : typeExpr? (text ++ (gap ++ (name.toList ++ rest)))
      = some (e, gap ++ (name.toList ++ rest)) :=
    typeExpr?_append h (hg.delimited _) (by rw [hskip]; exact hn.lettered rest)
  rw [typed?, hexpr]
  simp only [Option.bind_eq_bind, Option.bind_some, blanks?_append hg (hn.solid rest),
    name?_append hn hr]
  rfl

end SchemaLang.Source
