import SchemaLang.Proofs.Model.Canonical
import SchemaLang.Proofs.Outcome
import SchemaLang.Proofs.Source.Clauses

/-!
# What is read from a line

Each kind of line is read from a few pieces: a name, bases in parentheses, a type and a name.
Bases are listed with at least one name.  A type expression lists clauses for attributes, and the
number in a clause is a numeral, so that it stands for something to compare with.  What an
expression means is then canonical.

* `Line.parsed_of_parse?`: the pieces that a line is read from.
* `Line.bases?_ne_nil`: bases are not an empty list.
* `TypeExpr.canonical_type?`: types and attributes that are read are canonical.
-/

namespace SchemaLang.Source

variable {cs rest : List Char}

theorem separated_ne_nil {α : Type} {item : List Char → Option (α × List Char)} {as : List α}
    (h : separated item cs = some (as, rest)) : as ≠ [] := by
  obtain ⟨_, -, he⟩ := Option.map_eq_some_iff.1 h
  rintro rfl
  simp at he

/-! ## Clauses -/

/-- The number of a clause is something to compare with. -/
def Clause.Comparable : Clause → Prop
  | .number _ text => ∀ x, Number.float? text = some x → x.isNaN = false
  | _ => True

theorem Clause.Written.comparable {clause : Clause} {text : List Char} (h : clause.Written text) :
    clause.Comparable := by
  cases h with
  | nullable => trivial
  | number _ hn => exact fun x hx => hn.isNaN hx
  | length _ _ _ => trivial

theorem comparable_clauses? {opening closing : Char} {clauses : List Clause}
    (h : clauses? opening closing cs = some (clauses, rest)) :
    ∀ clause ∈ clauses, clause.Comparable := by
  intro clause hm
  obtain ⟨_, text, _, -, hlisted, -⟩ := listed_of_clauses? (List.ne_nil_of_mem hm) h
  obtain ⟨part, hpart⟩ := hlisted.exists_text clause hm
  exact hpart.comparable

theorem comparable_ownClauses (cs : List Char) :
    ∀ clause ∈ (ownClauses cs).1, clause.Comparable := by
  intro clause hm
  obtain ⟨text, hown, -⟩ := inParentheses_ownClauses cs
  obtain ⟨part, hpart⟩ := hown.exists_text clause hm
  exact hpart.comparable

/-! ## Type expressions -/

def Container.clauses : Container → List Clause
  | .plain => []
  | .array clauses => clauses
  | .dict clauses => clauses
  | .keyed _ valueClauses clauses => valueClauses ++ clauses

/-- All numbers in an expression are something to compare with. -/
def TypeExpr.Comparable (e : TypeExpr) : Prop :=
  ∀ clause ∈ e.clauses ++ e.container.clauses, clause.Comparable

theorem comparable_container (cs : List Char) :
    ∀ clause ∈ (container cs).1.clauses, clause.Comparable := by
  rw [container]
  cases h : array? cs <|> keyed? cs <|> dict? cs with
  | none => exact fun clause hm => absurd hm List.not_mem_nil
  | some p =>
    simp only [Option.orElse_eq_orElse, Option.orElse_eq_or, Option.or_eq_some_iff] at h
    rcases h with h | ⟨-, h | ⟨-, h⟩⟩
    · obtain ⟨_, hc, rfl⟩ := Option.map_eq_some_iff.1 h
      exact comparable_clauses? hc
    · simp only [keyed?, Option.bind_eq_bind, Option.bind_eq_some_iff] at h
      obtain ⟨_, -, ⟨value, valueRest⟩, -, ⟨clauses, _⟩, hc, he⟩ := h
      obtain rfl := Option.some.inj he
      intro clause hm
      rcases List.mem_append.1 hm with hm | hm
      · exact comparable_ownClauses valueRest clause hm
      · exact comparable_clauses? hc clause hm
    · obtain ⟨_, hc, rfl⟩ := Option.map_eq_some_iff.1 h
      exact comparable_clauses? hc

theorem comparable_typeExpr? {e : TypeExpr} (h : typeExpr? cs = some (e, rest)) :
    e.Comparable := by
  obtain ⟨⟨name, nameRest⟩, -, he⟩ := Option.map_eq_some_iff.1 h
  obtain ⟨rfl, -⟩ := Prod.mk.inj he
  intro clause hm
  rcases List.mem_append.1 hm with hm | hm
  · exact comparable_ownClauses nameRest clause hm
  · exact comparable_container _ clause hm

theorem Line.comparable_typed? {e : TypeExpr} {name : String}
    (h : typed? cs = some ((e, name), rest)) : e.Comparable := by
  simp only [typed?, Option.bind_eq_bind, Option.bind_eq_some_iff] at h
  obtain ⟨⟨e', _⟩, hte, _, -, _, -, he⟩ := h
  obtain rfl : e' = e := congrArg (fun p => p.1.1) (Option.some.inj he)
  exact comparable_typeExpr? hte

/-! ## What expressions mean -/

/-- A clause says something, whatever has been said before. -/
theorem Clause.canonical_of_apply {a b : Attributes} {clause : Clause} (hc : clause.Comparable)
    (ha : ∀ c x, a.number.get? c = some x → x.isNaN = false) (h : clause.apply? a = .ok b) :
    b.Canonical := by
  cases clause with
  | nullable =>
    obtain rfl := Except.ok.inj h
    refine ⟨?_, ha⟩
    intro he
    exact Bool.noConfusion (congrArg Attributes.nullable he)
  | number c text =>
    obtain rfl := Except.ok.inj h
    constructor
    · intro he
      have hget := congrArg (fun a => a.number.get? c) he
      simp only [Attributes.setNumber, Bounds.get?_set, if_pos] at hget
      cases c <;> simp [Bounds.get?] at hget
    · intro d x hx
      simp only [Attributes.setNumber, Bounds.get?_set] at hx
      split at hx
      · obtain rfl := Option.some.inj hx
        cases hf : Number.float? text with
        | none => decide +kernel
        | some y => exact hc y hf
      · exact ha d x hx
  | length c digits =>
    obtain ⟨n, -, rfl⟩ := Clause.apply_length_eq_ok_iff.1 h
    refine ⟨?_, ha⟩
    intro he
    have hget := congrArg (fun a => a.length.get? c) he
    simp only [Attributes.setLength, Bounds.get?_set, if_pos] at hget
    cases c <;> simp [Bounds.get?] at hget

theorem canonical_foldlM {clauses : List Clause} {a b : Attributes}
    (hc : ∀ clause ∈ clauses, clause.Comparable) (ha : a.Canonical)
    (h : clauses.foldlM Clause.apply? a = .ok b) : b.Canonical := by
  induction clauses generalizing a with
  | nil => exact Except.ok.inj h ▸ ha
  | cons clause clauses ih =>
    obtain ⟨hclause, hrest⟩ := List.forall_mem_cons.1 hc
    rw [List.foldlM_cons, bind_eq_ok_iff] at h
    obtain ⟨next, hnext, h⟩ := h
    exact ih hrest (clause.canonical_of_apply hclause ha.comparable hnext) h

/-- No clauses are no attributes, and the first clause says something. -/
theorem canonical_attributes? {clauses : List Clause} {attr : Option Attributes}
    (hc : ∀ clause ∈ clauses, clause.Comparable) (h : attributes? clauses = .ok attr) :
    ∀ a ∈ attr, a.Canonical := by
  intro a hm
  cases clauses with
  | nil =>
    obtain rfl := Except.ok.inj h
    exact absurd hm (by simp)
  | cons clause clauses =>
    obtain ⟨hclause, hrest⟩ := List.forall_mem_cons.1 hc
    obtain ⟨b, hb, rfl⟩ := map_eq_ok_iff.1 h
    obtain rfl : b = a := Option.some.inj hm
    rw [List.foldlM_cons, bind_eq_ok_iff] at hb
    obtain ⟨first, hfirst, hb⟩ := hb
    have hnone : ∀ c x, ({} : Attributes).number.get? c = some x → x.isNaN = false := by
      intro c x hx
      cases c <;> exact absurd hx (by simp [Bounds.get?])
    exact canonical_foldlM hrest (clause.canonical_of_apply hclause hnone hfirst) hb

theorem TypeExpr.canonical_type? {e : TypeExpr} {type : TypeRef} {attr : Option Attributes}
    (he : e.Comparable) (h : e.type? = .ok (type, attr)) :
    type.Canonical ∧ ∀ a ∈ attr, a.Canonical := by
  obtain ⟨name, own, container⟩ := e
  obtain ⟨ownAttr, hownAttr, h⟩ := bind_eq_ok_iff.1 h
  obtain ⟨hownClauses, hclauses⟩ := List.forall_mem_append.1 he
  have hown := canonical_attributes? hownClauses hownAttr
  have hname := TypeRef.simple_ofName name
  cases container with
  | plain =>
    obtain ⟨rfl, rfl⟩ := Prod.mk.inj (Except.ok.inj h)
    exact ⟨hname.canonical, hown⟩
  | array clauses =>
    obtain ⟨outer, houter, h⟩ := bind_eq_ok_iff.1 h
    obtain ⟨rfl, rfl⟩ := Prod.mk.inj (Except.ok.inj h)
    exact ⟨⟨hname, hown⟩, canonical_attributes? hclauses houter⟩
  | dict clauses =>
    obtain ⟨outer, houter, h⟩ := bind_eq_ok_iff.1 h
    obtain ⟨rfl, rfl⟩ := Prod.mk.inj (Except.ok.inj h)
    refine ⟨⟨⟨hname, hown⟩, ?_, ?_, ?_⟩, canonical_attributes? hclauses houter⟩
    · simp
    · simp
    · simp
  | keyed value valueClauses clauses =>
    obtain ⟨hvalueClauses, hclauses⟩ := List.forall_mem_append.1 hclauses
    obtain ⟨valueAttr, hvalue, h⟩ := bind_eq_ok_iff.1 h
    obtain ⟨outer, houter, h⟩ := bind_eq_ok_iff.1 h
    obtain ⟨rfl, rfl⟩ := Prod.mk.inj (Except.ok.inj h)
    refine ⟨⟨⟨?_, ?_⟩, ?_, hown, ?_⟩, canonical_attributes? hclauses houter⟩
    · exact TypeRef.simple_ofName value
    · exact canonical_attributes? hvalueClauses hvalue
    · intro key hkey
      obtain rfl := Option.some.inj hkey
      exact hname
    · exact fun _ => Option.some_ne_none _

/-! ## Lines -/

namespace Line

theorem bases?_ne_nil {bases : Option (List String)} (h : bases? cs = some bases) :
    bases ≠ some [] := by
  rintro rfl
  rw [bases?] at h
  split at h
  · next names rest hb =>
    rw [Option.ite_none_right_eq_some] at h
    obtain rfl : names = [] := by simpa using h.2
    simp only [baseList?, Option.bind_eq_bind, Option.bind_eq_some_iff] at hb
    obtain ⟨_, -, ⟨names, rest⟩, hs, _, -, he⟩ := hb
    exact separated_ne_nil hs (Prod.ext_iff.1 (Option.some.inj he)).1
  · simp at h

/-- What the names, bases and types of a line are read from. -/
inductive Parsed : Line → Prop
  | comment (doc : Option (List Char)) : Parsed (.comment doc)
  | group (name : Option (List Char)) : Parsed (.group name)
  | action {cs rest : List Char} {name : String} (hn : name? cs = some (name, rest)) :
      Parsed (.action name)
  | definition {cs rest basesText : List Char} (kind : DefinitionKind) {name : String}
      {bases : Option (List String)} (hn : name? cs = some (name, rest))
      (hb : bases? basesText = some bases) : Parsed (.definition kind name bases)
  | «section» {cs : List Char} (s : Section) {bases : Option (List String)}
      (hb : bases? cs = some bases) : Parsed (.section s bases)
  | urls : Parsed .urls
  | value (name : String) : Parsed (.value name)
  | member {cs rest : List Char} (optional : Bool) {name : String} {type : TypeExpr}
      (ht : typed? cs = some ((type, name), rest)) : Parsed (.member optional name type)
  | url (method : String) (path : Option String) : Parsed (.url method path)
  | typedef {cs rest : List Char} {name : String} {type : TypeExpr}
      (ht : typed? cs = some ((type, name), rest)) : Parsed (.typedef name type)

theorem parsed_comment {line : Line} (h : comment? cs = some line) : line.Parsed := by
  rw [comment?] at h
  split at h
  · exact Option.some.inj h ▸ .comment none
  · exact Option.some.inj h ▸ .comment none
  · next doc _ _ => exact Option.some.inj h ▸ .comment (some doc)
  · simp at h

theorem parsed_group {line : Line} (h : group? cs = some line) : line.Parsed := by
  simp only [group?, Option.bind_eq_bind, Option.bind_eq_some_iff] at h
  obtain ⟨rest, -, h⟩ := h
  split at h
  · exact Option.some.inj h ▸ .group _
  · rw [Option.ite_none_right_eq_some] at h
    exact Option.some.inj h.2 ▸ .group _

theorem parsed_action {line : Line} (h : action? cs = some line) : line.Parsed := by
  simp only [action?, Option.bind_eq_bind, Option.bind_eq_some_iff] at h
  obtain ⟨_, -, _, -, _, hn, he⟩ := h
  exact Option.some.inj he ▸ .action hn

theorem parsed_definition {line : Line} (h : definition? cs = some line) : line.Parsed := by
  simp only [definition?, Option.bind_eq_bind, Option.bind_eq_some_iff] at h
  obtain ⟨_, -, _, -, _, hn, _, hb, he⟩ := h
  exact Option.some.inj he ▸ .definition _ hn hb

theorem parsed_section {line : Line} (h : section? cs = some line) : line.Parsed := by
  simp only [section?, Option.bind_eq_bind, Option.bind_eq_some_iff] at h
  obtain ⟨_, -, _, -, _, hb, he⟩ := h
  exact Option.some.inj he ▸ .section _ hb

theorem parsed_urls {line : Line} (h : urls? cs = some line) : line.Parsed := by
  simp only [urls?, Option.bind_eq_bind, Option.bind_eq_some_iff] at h
  obtain ⟨_, -, _, -, h⟩ := h
  rw [Option.ite_none_right_eq_some] at h
  exact Option.some.inj h.2 ▸ .urls

theorem parsed_value {line : Line} (h : value? cs = some line) : line.Parsed := by
  simp only [value?, Option.bind_eq_bind, Option.bind_eq_some_iff] at h
  obtain ⟨_, -, h⟩ := h
  split at h
  · rw [Option.ite_none_right_eq_some] at h
    exact Option.some.inj h.2 ▸ .value _
  · simp only [Option.bind_eq_some_iff] at h
    obtain ⟨_, -, _, -, he⟩ := h
    exact Option.some.inj he ▸ .value _

theorem parsed_member {line : Line} (h : member? cs = some line) : line.Parsed := by
  simp only [member?, Option.bind_eq_bind, Option.bind_eq_some_iff] at h
  obtain ⟨_, -, h⟩ := h
  split at h
  · next ho =>
    rw [Option.ite_none_right_eq_some] at h
    simp only [optional?, Option.bind_eq_bind, Option.bind_eq_some_iff] at ho
    obtain ⟨_, -, _, -, ht⟩ := ho
    exact Option.some.inj h.2 ▸ .member true ht
  · simp only [Option.bind_eq_some_iff] at h
    obtain ⟨⟨⟨type, name⟩, rest⟩, ht, h⟩ := h
    rw [Option.ite_none_right_eq_some] at h
    exact Option.some.inj h.2 ▸ .member false ht

theorem parsed_url {line : Line} (h : url? cs = some line) : line.Parsed := by
  simp only [url?, Option.bind_eq_bind, Option.bind_eq_some_iff] at h
  obtain ⟨_, -, _, -, he⟩ := h
  exact Option.some.inj he ▸ .url _ _

theorem parsed_typedef {line : Line} (h : typedef? cs = some line) : line.Parsed := by
  simp only [typedef?, Option.bind_eq_bind, Option.bind_eq_some_iff] at h
  obtain ⟨_, -, _, -, ⟨⟨type, name⟩, rest⟩, ht, h⟩ := h
  rw [Option.ite_none_right_eq_some] at h
  exact Option.some.inj h.2 ▸ .typedef ht

theorem parsed_of_parse? {place : Place} {line : Line} (h : parse? place cs = some line) :
    line.Parsed := by
  simp only [parse?, onlyIf, Option.orElse_eq_orElse, Option.orElse_eq_or, Option.or_eq_some_iff,
    Option.ite_none_right_eq_some] at h
  obtain h | ⟨-, h | ⟨-, h | ⟨-, h | ⟨-, ⟨-, h⟩ | ⟨-, ⟨-, h⟩ | ⟨-, ⟨-, h⟩ | ⟨-, ⟨-, h⟩
    | ⟨-, ⟨-, h⟩ | ⟨-, h⟩⟩⟩⟩⟩⟩⟩⟩⟩ := h
  · exact parsed_comment h
  · exact parsed_group h
  · exact parsed_action h
  · exact parsed_definition h
  · exact parsed_section h
  · exact parsed_urls h
  · exact parsed_value h
  · exact parsed_member h
  · exact parsed_url h
  · exact parsed_typedef h

end Line

end SchemaLang.Source
