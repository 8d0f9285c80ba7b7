import Mathlib.Data.List.Infix
import SchemaLang.Files.Pattern
import SchemaLang.Proofs.Text.Pieces

/-!
# Patterns of texts

A text that is escaped is a pattern without faults that only the text itself has the form of, and
escaping leaves the slashes where they are, so that the components of an escaped path are its
components, escaped.

* `Pattern.ofText`, `Pattern.parse_escape`: the pattern that an escaped text is read as.
* `Pattern.parse_escape_append`: what follows an escaped text is read as it would be alone.
* `Pattern.accepts_ofText`, `Pattern.accepts_anySequence`: the names that have the form of a text,
  and those that end in it.
* `Pattern.splitAt_escape`: the components of an escaped path.
-/

namespace SchemaLang.Files.Pattern

/-! ## What escaped texts are read as -/

/-- A character that stands for others in a pattern, or begins or ends a set. -/
def IsWild (c : Char) : Prop := c = '?' ∨ c = '*' ∨ c = '[' ∨ c = ']'

instance (c : Char) : Decidable (IsWild c) := inferInstanceAs (Decidable (_ ∨ _ ∨ _ ∨ _))

/-- The pattern that is read from an escaped text: a wild character is a set of its own. -/
def ofText (text : List Char) : Pattern :=
  text.map fun c => if IsWild c then .within [⟨c, c⟩] else .char c

theorem escape_cons (c : Char) (cs : List Char) :
    escape (c :: cs) = (if IsWild c then ['[', c, ']'] else [c]) ++ escape cs := rfl

theorem length_le_escape (cs : List Char) : cs.length ≤ (escape cs).length := by
  induction cs with
  | nil => exact Nat.zero_le _
  | cons c cs ih =>
    rw [escape_cons, List.length_append, List.length_cons]
    split
    · simp only [List.length_cons, List.length_nil]
      omega
    · simp only [List.length_cons, List.length_nil]
      omega

theorem set?_isWild {c : Char} (h : IsWild c) (rest : List Char) :
    set? (c :: ']' :: rest) = some (.within [⟨c, c⟩], rest) := by
  rcases h with rfl | rfl | rfl | rfl <;> rfl

/-- One round for each character is enough for an escaped text, which has more. -/
theorem tokensFrom_escape (cs rest : List Char) (count position : Nat) (start : Bool) :
    ∃ position' start', tokensFrom (cs.length + count) position start (escape cs ++ rest)
      = (tokensFrom count position' start' rest).map (ofText cs ++ ·) := by
  induction cs generalizing position start with
  | nil =>
    refine ⟨position, start, ?_⟩
    rw [List.length_nil, Nat.zero_add]
    cases h : tokensFrom count position start rest <;> simp [h, escape, ofText, Except.map]
  | cons c cs ih =>
    have hcount : (c :: cs).length + count = cs.length + count + 1 := by
      rw [List.length_cons]
      omega
    have hmap : ∀ (t : Token) (x : Except PatternFault Pattern),
        (x.map (ofText cs ++ ·)).map (t :: ·) = x.map (t :: ofText cs ++ ·) := by
      intro t x
      cases x <;> rfl
    rw [hcount, escape_cons, ofText, List.map_cons, ← ofText]
    by_cases hw : IsWild c
    · obtain ⟨position', start', h⟩ := ih (position + 1 + ((c :: ']' :: (escape cs ++ rest)).length
        - (escape cs ++ rest).length)) false
      refine ⟨position', start', ?_⟩
      rw [if_pos hw, if_pos hw]
      simp only [List.cons_append, List.nil_append, tokensFrom, set?_isWild hw, h]
      exact hmap _ _
    · obtain ⟨position', start', h⟩ := ih (position + 1) (c = '/')
      refine ⟨position', start', ?_⟩
      rw [if_neg hw, if_neg hw]
      simp only [IsWild, not_or] at hw
      simp only [List.cons_append, List.nil_append, tokensFrom, hw, if_false, h]
      exact hmap _ _

theorem parse_escape (cs : List Char) : parse (escape cs) = .ok (ofText cs) := by
  obtain ⟨count, hcount⟩ := Nat.exists_eq_add_of_le (length_le_escape cs)
  obtain ⟨position, start, h⟩ := tokensFrom_escape cs [] count 0 true
  rw [List.append_nil] at h
  rw [parse, hcount, h]
  cases count <;> simp [tokensFrom, Except.map]

/-- What follows an escaped text has no fault if it has none wherever it stands. -/
theorem parse_escape_append (cs : List Char) {rest : List Char}
    (h : ∀ count position start, rest.length ≤ count →
      ∃ p, tokensFrom count position start rest = .ok p) :
    ∃ p, parse (escape cs ++ rest) = .ok p := by
  have hle : cs.length ≤ (escape cs ++ rest).length := by
    rw [List.length_append]
    exact Nat.le_add_right_of_le (length_le_escape cs)
  obtain ⟨count, hcount⟩ := Nat.exists_eq_add_of_le hle
  obtain ⟨position, start, ht⟩ := tokensFrom_escape cs rest count 0 true
  have hrest : rest.length ≤ count := by
    have := length_le_escape cs
    rw [List.length_append] at hcount
    omega
  obtain ⟨p, hp⟩ := h count position start hrest
  exact ⟨ofText cs ++ p, by rw [parse, hcount, ht, hp]; rfl⟩

/-! ## What patterns of texts describe -/

theorem isRecursive_ofText (cs : List Char) : isRecursive (ofText cs) = false := by
  rw [isRecursive, List.contains_eq_mem, decide_eq_false_iff_not]
  intro h
  obtain ⟨c, -, hc⟩ := List.mem_map.1 h
  split at hc <;> cases hc

theorem eq_of_literal?_ofText {cs chars : List Char} (h : literal? (ofText cs) = some chars) :
    chars = cs := by
  induction cs generalizing chars with
  | nil => exact (Option.some.inj h).symm
  | cons c cs ih =>
    rw [ofText, List.map_cons, ← ofText, literal?, List.mapM_cons] at h
    by_cases hw : IsWild c
    · simp [hw] at h
    · simp only [hw, if_false, Option.bind_eq_bind, Option.bind_some, Option.pure_def] at h
      obtain ⟨rest, hr, he⟩ := Option.bind_eq_some_iff.1 h
      rw [← Option.some.inj he, ih hr]

theorem accepts_ofText {cs name : List Char} : accepts (ofText cs) name = true ↔ name = cs := by
  induction cs generalizing name with
  | nil => cases name <;> simp [ofText, accepts]
  | cons d cs ih =>
    rw [ofText, List.map_cons, ← ofText]
    cases name with
    | nil => split <;> simp [accepts]
    | cons c name =>
      split
      · have hrange : d ≤ c ∧ c ≤ d ↔ c = d :=
          ⟨fun h => Char.le_antisymm h.2 h.1, fun h => h ▸ ⟨Char.le_refl c, Char.le_refl c⟩⟩
        simp [accepts, ih, CharRange.contains, hrange]
      · simp [accepts, ih]

theorem mem_suffixes {text ending : List Char} : ending ∈ suffixes text ↔ ending <:+ text := by
  induction text with
  | nil => simp [suffixes]
  | cons c cs ih => rw [suffixes, List.mem_cons, ih, List.suffix_cons_iff]

theorem accepts_anySequence {ending name : List Char} :
    accepts (.anySequence :: ofText ending) name = true ↔ ending <:+ name := by
  rw [accepts, List.any_eq_true]
  constructor
  · rintro ⟨rest, hr, h⟩
    rw [← accepts_ofText.1 h]
    exact mem_suffixes.1 hr
  · exact fun h => ⟨ending, mem_suffixes.2 h, accepts_ofText.2 rfl⟩

/-! ## Components -/

/-- Escaping leaves the slashes where they are. -/
theorem splitAt_escape (cs : List Char) :
    Text.splitAt '/' (escape cs) = (Text.splitAt '/' cs).map escape := by
  induction cs with
  | nil => rfl
  | cons c cs ih =>
    obtain ⟨piece, pieces, hcut⟩ := List.exists_cons_of_ne_nil (Text.splitAt_ne_nil '/' cs)
    rw [hcut, List.map_cons] at ih
    by_cases hc : c = '/'
    · subst hc
      rw [escape_cons, if_neg (by decide), List.singleton_append, Text.splitAt, if_pos rfl, ih,
        Text.splitAt, if_pos rfl, hcut]
      rfl
    · have hfront : '/' ∉ if IsWild c then ['[', c, ']'] else [c] := by
        split <;> simp [Ne.symm hc]
      rw [escape_cons, Text.splitAt_not_mem_append hfront ih, Text.splitAt, if_neg hc, hcut,
        List.map_cons, escape_cons]

end SchemaLang.Files.Pattern
