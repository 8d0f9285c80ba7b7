import SchemaLang.Proofs.Number.Decimals
import SchemaLang.Proofs.Source.Scan
import SchemaLang.Source.Line

/-!
# Texts of clauses

A clause is written as a word, or as an operator and a number, perhaps after `len`; clauses are
written in parentheses with commas between them.  `Clause.Written` and `InParentheses` say so
without a scanner.  What is scanned has been written like that, clause by clause and in this order,
so that nothing between the parentheses is left out.

* `Numeral.exists_float?`, `Numeral.isNaN`: every numeral stands for a number that can be compared.
* `Clause.written_of_clause?`, `listed_of_separated`: one clause, and a list with commas.
* `Line.typedefText_of_typedef?`: a typedef of a plain type, from its text.
-/

namespace SchemaLang.Source

variable {cs rest : List Char}

/-! ## Numerals -/

def Digits (digits : List Char) : Prop := digits ≠ [] ∧ ∀ c ∈ digits, c.isDigit = true

instance (digits : List Char) : Decidable (Digits digits) :=
  decidable_of_iff (digits ≠ [] ∧ digits.all Char.isDigit = true) <| by
    rw [Digits, List.all_eq_true]

/-- Digits, perhaps with a point among them and a minus sign in front. -/
inductive Numeral : List Char → Prop
  | whole (negative : Bool) {whole : List Char} (hw : Digits whole) :
      Numeral (Number.signed negative whole)
  | point (negative : Bool) {whole fraction : List Char} (hw : Digits whole)
      (hf : Digits fraction) : Numeral (Number.signed negative (whole ++ '.' :: fraction))

theorem Digits.starts {digits : List Char} (h : Digits digits) (cs : List Char) :
    ∃ c tail, digits ++ cs = c :: tail ∧ c.isDigit = true := by
  obtain ⟨c, tail, rfl⟩ := List.exists_cons_of_ne_nil h.1
  exact ⟨c, tail ++ cs, rfl, h.2 c List.mem_cons_self⟩

theorem Numeral.exists_float? {text : List Char} (h : Numeral text) :
    ∃ x, Number.float? text = some x := by
  cases h with
  | @whole negative whole hw =>
    have hd := Number.decimal?_whole hw.2 hw.1 Number.noDigit_nil (by simp)
    rw [List.append_nil] at hd
    rw [Number.float?_signed negative (List.append_nil whole ▸ hw.starts []), hd]
    exact ⟨_, rfl⟩
  | @point negative whole fraction hw hf =>
    have hd := Number.decimal?_point hw.2 hf.2 hw.1 Number.noDigit_nil
    rw [List.append_nil] at hd
    rw [Number.float?_signed negative (hw.starts _), hd]
    exact ⟨_, rfl⟩

/-- A numeral is something to compare with. -/
theorem Numeral.isNaN {text : List Char} (h : Numeral text) {x : Float}
    (hx : Number.float? text = some x) : x.isNaN = false := by
  cases h with
  | @whole negative whole hw =>
    exact Number.isNaN_of_float?_signed (List.append_nil whole ▸ hw.starts []) hx
  | point negative hw hf => exact Number.isNaN_of_float?_signed (hw.starts _) hx

theorem places_sound (cs : List Char) :
    cs = (places cs).1 ++ (places cs).2
      ∧ ((places cs).1 = [] ∨ ∃ fraction, Digits fraction ∧ (places cs).1 = '.' :: fraction) := by
  unfold places
  split
  · split
    · next fraction rest h =>
      obtain ⟨hne, rfl, hf, -⟩ := digits?_eq_some_iff.1 h
      exact ⟨rfl, .inr ⟨fraction, ⟨hne, hf⟩, rfl⟩⟩
    · exact ⟨rfl, .inl rfl⟩
  · exact ⟨rfl, .inl rfl⟩

theorem numeral_of_unsignedNumber? {text : List Char}
    (h : unsignedNumber? cs = some (text, rest)) :
    cs = text ++ rest ∧ ∀ negative, Numeral (Number.signed negative text) := by
  obtain ⟨⟨whole, after⟩, hwhole, he⟩ := Option.map_eq_some_iff.1 h
  obtain ⟨hne, rfl, hw, -⟩ := digits?_eq_some_iff.1 hwhole
  obtain ⟨hafter, hfraction⟩ := places_sound after
  obtain ⟨htext, hrest⟩ :=
    Prod.mk.inj (show (whole ++ (places after).1, (places after).2) = (text, rest) from he)
  rw [← htext, ← hrest, List.append_assoc, ← hafter]
  refine ⟨rfl, fun negative => ?_⟩
  rcases hfraction with hnil | ⟨fraction, hf, hpoint⟩
  · rw [hnil, List.append_nil]
    exact .whole negative ⟨hne, hw⟩
  · rw [hpoint]
    exact .point negative ⟨hne, hw⟩ hf

theorem numeral_of_number? {text : List Char} (h : number? cs = some (text, rest)) :
    Numeral text ∧ cs = text ++ rest := by
  unfold number? at h
  split at h
  · obtain ⟨⟨text, after⟩, ht, he⟩ := Option.map_eq_some_iff.1 h
    obtain ⟨rfl, rfl⟩ := Prod.mk.inj he
    obtain ⟨rfl, hn⟩ := numeral_of_unsignedNumber? ht
    exact ⟨hn true, rfl⟩
  · obtain ⟨rfl, hn⟩ := numeral_of_unsignedNumber? h
    exact ⟨hn false, rfl⟩

/-! ## One clause -/

/-- What a clause is written as. -/
inductive Clause.Written : Clause → List Char → Prop
  | nullable : Written .nullable "nullable".toList
  | number {c : Comparison} {gap text : List Char} (hg : Blank gap) (hn : Numeral text) :
      Written (.number c text) (c.operator.toList ++ (gap ++ text))
  | length {c : Comparison} {gap gap' digits : List Char} (hg : Blank gap) (hg' : Blank gap')
      (hd : Digits digits) :
      Written (.length c digits) ("len".toList ++ (gap ++ (c.operator.toList ++ (gap' ++ digits))))

theorem eq_of_comparison? {c : Comparison} (h : comparison? cs = some (c, rest)) :
    cs = c.operator.toList ++ rest := by
  obtain ⟨operator, -, h⟩ := List.exists_of_findSome?_eq_some h
  obtain ⟨after, hw, h⟩ := Option.bind_eq_some_iff.1 h
  obtain ⟨c', hc, he⟩ := Option.bind_eq_some_iff.1 h
  obtain ⟨rfl, rfl⟩ := Prod.mk.inj (Option.some.inj he)
  rw [Comparison.operator_of_ofOperator? hc]
  exact word?_eq_some_iff.1 hw

theorem Clause.written_of_clause? {clause : Clause} (h : clause? cs = some (clause, rest)) :
    ∃ text, clause.Written text ∧ cs = text ++ rest := by
  simp only [clause?, Option.orElse_eq_orElse, Option.orElse_eq_or, Option.or_eq_some_iff] at h
  rcases h with h | ⟨-, h | ⟨-, h⟩⟩
  · obtain ⟨after, hw, he⟩ := Option.map_eq_some_iff.1 h
    obtain ⟨rfl, rfl⟩ := Prod.mk.inj he
    exact ⟨_, .nullable, word?_eq_some_iff.1 hw⟩
  · simp only [lengthClause?, Option.bind_eq_bind, Option.bind_eq_some_iff] at h
    obtain ⟨start, hlen, ⟨c, after⟩, hc, ⟨digits, rest'⟩, hd, he⟩ := h
    obtain ⟨rfl, rfl⟩ := Prod.mk.inj (Option.some.inj he)
    obtain ⟨hne, hafter, hdigits, -⟩ := digits?_eq_some_iff.1 hd
    obtain ⟨gap, hgap, hstart⟩ := exists_blank start
    obtain ⟨gap', hgap', hcomparison⟩ := exists_blank after
    refine ⟨_, .length hgap hgap' ⟨hne, hdigits⟩, ?_⟩
    rw [word?_eq_some_iff.1 hlen, hstart, eq_of_comparison? hc, hcomparison, hafter]
    simp only [List.append_assoc]
  · simp only [numberClause?, Option.bind_eq_bind, Option.bind_eq_some_iff] at h
    obtain ⟨⟨c, after⟩, hc, ⟨text, rest'⟩, hn, he⟩ := h
    obtain ⟨rfl, rfl⟩ := Prod.mk.inj (Option.some.inj he)
    obtain ⟨hnumeral, htext⟩ := numeral_of_number? hn
    obtain ⟨gap, hgap, hafter⟩ := exists_blank after
    refine ⟨_, .number hgap hnumeral, ?_⟩
    rw [eq_of_comparison? hc, hafter, htext]
    simp only [List.append_assoc]

/-! ## Lists with commas -/

/-- Items of which each is written in its way, with a comma between any two. -/
inductive Listed {α : Type} (P : α → List Char → Prop) : List α → List Char → Prop
  | one {a : α} {text : List Char} (h : P a text) : Listed P [a] text
  | cons {a : α} {as : List α} {text gap gap' more : List Char} (h : P a text) (hg : Blank gap)
      (hg' : Blank gap') (hr : Listed P as more) :
      Listed P (a :: as) (text ++ (gap ++ ',' :: (gap' ++ more)))

theorem Listed.exists_text {α : Type} {P : α → List Char → Prop} {as : List α} {text : List Char}
    (h : Listed P as text) : ∀ a ∈ as, ∃ part, P a part := by
  induction h with
  | one h =>
    rintro a hm
    obtain rfl := List.mem_singleton.1 hm
    exact ⟨_, h⟩
  | cons h _ _ _ ih => exact List.forall_mem_cons.2 ⟨⟨_, h⟩, ih⟩

section

variable {α : Type} {item : List Char → Option (α × List Char)} {P : α → List Char → Prop}

theorem listed_alone {a : α} {text : List Char} (ha : P a text) (cs : List Char) :
    ∃ more, Listed P [a] (text ++ more) ∧ cs = more ++ cs := by
  refine ⟨[], ?_, rfl⟩
  rw [List.append_nil]
  exact .one ha

theorem listed_of_further
    (hitem : ∀ {cs a rest}, item cs = some (a, rest) → ∃ text, P a text ∧ cs = text ++ rest)
    (count : Nat) {a : α} {text : List Char} (ha : P a text) (cs : List Char) :
    ∃ more, Listed P (a :: (further item count cs).1) (text ++ more)
      ∧ cs = more ++ (further item count cs).2 := by
  induction count generalizing a text cs with
  | zero => exact listed_alone ha cs
  | succ count ih =>
    rw [further]
    split
    · next start hcomma =>
      split
      · next b after hb =>
        obtain ⟨gap, hgap, hcs⟩ := exists_blank cs
        obtain ⟨gap', hgap', hstart⟩ := exists_blank start
        obtain ⟨text', hb', htext'⟩ := hitem hb
        obtain ⟨more, hlisted, hmore⟩ := ih hb' after
        refine ⟨gap ++ ',' :: (gap' ++ (text' ++ more)), .cons ha hgap hgap' hlisted, ?_⟩
        calc cs = gap ++ ',' :: (gap' ++ (text' ++ after)) := by
              rw [hcs, hcomma, ← htext', ← hstart]
          _ = gap ++ ',' :: (gap' ++ (text' ++ (more ++ (further item count after).2))) := by
            rw [← hmore]
          _ = _ := by simp only [List.append_assoc, List.cons_append]
      · exact listed_alone ha cs
    · exact listed_alone ha cs

theorem listed_of_separated {as : List α}
    (hitem : ∀ {cs a rest}, item cs = some (a, rest) → ∃ text, P a text ∧ cs = text ++ rest)
    (h : separated item cs = some (as, rest)) : ∃ text, Listed P as text ∧ cs = text ++ rest := by
  obtain ⟨⟨a, after⟩, ha, he⟩ := Option.map_eq_some_iff.1 h
  obtain ⟨rfl, rfl⟩ := Prod.mk.inj he
  obtain ⟨text, hwritten, rfl⟩ := hitem ha
  obtain ⟨more, hlisted, hmore⟩ := listed_of_further hitem after.length hwritten after
  exact ⟨text ++ more, hlisted, by rw [List.append_assoc, ← hmore]⟩

end

/-! ## Clauses in parentheses -/

/-- Nothing at all, or clauses in parentheses with blanks in front. -/
inductive InParentheses : List Clause → List Char → Prop
  | none : InParentheses [] []
  | some {clauses : List Clause} {gap gap' gap'' text : List Char} (hg : Blank gap)
      (hg' : Blank gap') (hl : Listed Clause.Written clauses text) (hg'' : Blank gap'') :
      InParentheses clauses (gap ++ '(' :: (gap' ++ (text ++ (gap'' ++ [')']))))

theorem InParentheses.exists_text {clauses : List Clause} {text : List Char}
    (h : InParentheses clauses text) : ∀ clause ∈ clauses, ∃ part, clause.Written part := by
  cases h with
  | none => simp
  | some _ _ hl _ => exact hl.exists_text

/-- A list that is not empty has been scanned between the brackets. -/
theorem listed_of_clauses? {opening closing : Char} {clauses : List Clause} (hne : clauses ≠ [])
    (h : clauses? opening closing cs = some (clauses, rest)) :
    ∃ gap text gap', Blank gap ∧ Listed Clause.Written clauses text ∧ Blank gap'
      ∧ cs = opening :: (gap ++ (text ++ (gap' ++ closing :: rest))) := by
  simp only [clauses?, Option.bind_eq_bind, Option.bind_eq_some_iff] at h
  obtain ⟨start, hopen, after, hclose, he⟩ := h
  obtain ⟨hlist, rfl⟩ := Prod.mk.inj (Option.some.inj he)
  obtain ⟨gap, hgap, hstart⟩ := exists_blank start
  cases hs : separated clause? (skipBlanks start) with
  | none =>
    rw [hs] at hlist
    exact absurd hlist.symm hne
  | some p =>
    obtain ⟨listed, tail⟩ := p
    rw [hs] at hlist hclose
    obtain rfl : listed = clauses := hlist
    obtain ⟨text, hlisted, htext⟩ := listed_of_separated Clause.written_of_clause? hs
    obtain ⟨gap', hgap', htail⟩ := exists_blank tail
    have hend : skipBlanks tail = closing :: after := word?_eq_some_iff.1 hclose
    refine ⟨gap, text, gap', hgap, hlisted, hgap', ?_⟩
    rw [word?_eq_some_iff.1 hopen, hstart, htext, htail, hend]
    rfl

theorem inParentheses_ownClauses (cs : List Char) :
    ∃ text, InParentheses (ownClauses cs).1 text ∧ cs = text ++ (ownClauses cs).2 := by
  rw [ownClauses]
  split
  · next clause clauses after hclauses =>
    obtain ⟨gap, hgap, hcs⟩ := exists_blank cs
    obtain ⟨gap', text, gap'', hgap', hlisted, hgap'', hopen⟩ :=
      listed_of_clauses? (List.cons_ne_nil _ _) hclauses
    refine ⟨_, .some hgap hgap' hlisted hgap'', ?_⟩
    rw [hcs, hopen]
    simp only [List.append_assoc, List.cons_append, List.nil_append]
  · exact ⟨[], .none, rfl⟩

/-! ## Typedefs -/

/-- A typedef of a plain type: its word, the name of the type with clauses in parentheses, and its
own name, with blanks between them and perhaps at the end. -/
inductive TypedefText (type : String) (clauses : List Clause) (name : String) : List Char → Prop
  | mk {gap own gap' trail : List Char} (hg : Gap gap) (ho : InParentheses clauses own)
      (hg' : Gap gap') (ht : Blank trail) : TypedefText type clauses name
        ("typedef".toList ++ (gap ++ (type.toList ++ (own ++ (gap' ++ (name.toList ++ trail))))))

/-- Nothing that follows a plain type belongs to it. -/
theorem eq_of_container_plain (h : (container cs).1 = .plain) : (container cs).2 = cs := by
  rw [container] at h ⊢
  cases hc : array? cs <|> keyed? cs <|> dict? cs with
  | none => rfl
  | some p =>
    rw [hc, Option.getD_some] at h
    simp only [Option.orElse_eq_orElse, Option.orElse_eq_or, Option.or_eq_some_iff] at hc
    rcases hc with hc | ⟨-, hc | ⟨-, hc⟩⟩
    · obtain ⟨_, -, rfl⟩ := Option.map_eq_some_iff.1 hc
      exact Container.noConfusion h
    · simp only [keyed?, Option.bind_eq_bind, Option.bind_eq_some_iff] at hc
      obtain ⟨_, -, _, -, _, -, he⟩ := hc
      obtain rfl := Option.some.inj he
      exact Container.noConfusion h
    · obtain ⟨_, -, rfl⟩ := Option.map_eq_some_iff.1 hc
      exact Container.noConfusion h

theorem eq_of_typeExpr? {e : TypeExpr} (h : typeExpr? cs = some (e, rest))
    (hp : e.container = .plain) :
    ∃ own, InParentheses e.clauses own ∧ cs = e.name.toList ++ (own ++ rest) := by
  obtain ⟨⟨name, after⟩, hname, he⟩ := Option.map_eq_some_iff.1 h
  obtain ⟨own, hown, hafter⟩ := inParentheses_ownClauses after
  obtain ⟨he, hrest⟩ := Prod.mk.inj (show
    (({ name, clauses := (ownClauses after).1, container := (container (ownClauses after).2).1 },
      (container (ownClauses after).2).2) : TypeExpr × List Char) = (e, rest) from he)
  subst he
  refine ⟨own, hown, ?_⟩
  rw [← hrest, eq_of_container_plain hp, ← hafter]
  exact eq_of_name? hname

theorem Line.eq_of_typed? {e : TypeExpr} {name : String}
    (h : typed? cs = some ((e, name), rest)) (hp : e.container = .plain) :
    ∃ own gap, InParentheses e.clauses own ∧ Gap gap
      ∧ cs = e.name.toList ++ (own ++ (gap ++ (name.toList ++ rest))) := by
  simp only [typed?, Option.bind_eq_bind, Option.bind_eq_some_iff] at h
  obtain ⟨⟨type, after⟩, htype, named, hgap, ⟨name', rest'⟩, hname, he⟩ := h
  obtain ⟨hpair, rfl⟩ := Prod.mk.inj (Option.some.inj he)
  obtain ⟨rfl, rfl⟩ := Prod.mk.inj hpair
  obtain ⟨own, hown, hcs⟩ := eq_of_typeExpr? htype hp
  obtain ⟨gap, hne, hrun⟩ := blanks?_eq_some_iff.1 hgap
  refine ⟨own, gap, hown, ⟨hne, hrun.all⟩, ?_⟩
  rw [hcs, ← eq_of_name? hname, ← hrun.eq]

theorem Line.typedefText_of_typedef? {name : String} {e : TypeExpr}
    (h : typedef? cs = some (.typedef name e)) (hp : e.container = .plain) :
    TypedefText e.name e.clauses name cs := by
  simp only [typedef?, Option.bind_eq_bind, Option.bind_eq_some_iff] at h
  obtain ⟨start, hword, expr, hgap, ⟨⟨type, name'⟩, trail⟩, htyped, h⟩ := h
  rw [Option.ite_none_right_eq_some, atEnd_iff] at h
  obtain ⟨htrail, h⟩ := h
  obtain ⟨rfl, rfl⟩ := Line.typedef.inj (Option.some.inj h)
  obtain ⟨gap, hne, hrun⟩ := blanks?_eq_some_iff.1 hgap
  obtain ⟨own, gap', hown, hgap', hexpr⟩ := eq_of_typed? htyped hp
  rw [word?_eq_some_iff.1 hword, hrun.eq, hexpr]
  exact .mk ⟨hne, hrun.all⟩ hown hgap' htrail

/-- Nothing else begins like a typedef. -/
theorem Line.parse?_of_typedef? {place : Place} {line : Line} (h : typedef? cs = some line) :
    parse? place cs = some line := by
  have hword : ∃ start, cs = "typedef".toList ++ start := by
    simp only [typedef?, Option.bind_eq_bind, Option.bind_eq_some_iff] at h
    obtain ⟨start, hword, -⟩ := h
    exact ⟨start, word?_eq_some_iff.1 hword⟩
  obtain ⟨start, rfl⟩ := hword
  have hother : parse? place ("typedef".toList ++ start)
      = typedef? ("typedef".toList ++ start) := by
    obtain ⟨sections, values, members, urls⟩ := place
    cases sections <;> cases values <;> cases members <;> cases urls <;> rfl
  rw [hother, h]

end SchemaLang.Source
