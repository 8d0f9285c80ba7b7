import SchemaLang.Text.Space

/-!
# Pieces that do not contain their separator

* `not_mem_of_mem_splitAt`: a piece does not contain the separator.
* `splitAt_intercalate`: joined pieces are cut where they have been joined.
* `splitAt_intercalate_flatMap`: pieces that contain the separator are cut there as well.
* `lines_flatMap`: texts without line breaks that are written as lines come back.
-/

namespace SchemaLang.Text

variable {sep : Char}

theorem splitAt_of_not_mem {cs : List Char} (h : sep ∉ cs) : splitAt sep cs = [cs] := by
  induction cs with
  | nil => rfl
  | cons c cs ih =>
    rw [List.mem_cons, not_or] at h
    rw [splitAt, if_neg (Ne.symm h.1), ih h.2]

/-- What does not contain the separator belongs to the piece that follows. -/
theorem splitAt_not_mem_append {front cs piece : List Char} {pieces : List (List Char)}
    (h : sep ∉ front) (hc : splitAt sep cs = piece :: pieces) :
    splitAt sep (front ++ cs) = (front ++ piece) :: pieces := by
  induction front with
  | nil => exact hc
  | cons c front ih =>
    rw [List.mem_cons, not_or] at h
    rw [List.cons_append, splitAt, if_neg (Ne.symm h.1), ih h.2, List.cons_append]

theorem not_mem_of_mem_splitAt {cs piece : List Char} (h : piece ∈ splitAt sep cs) :
    sep ∉ piece := by
  induction cs generalizing piece with
  | nil =>
    rw [List.mem_singleton.1 h]
    exact List.not_mem_nil
  | cons c cs ih =>
    obtain ⟨first, pieces, hcut⟩ := List.exists_cons_of_ne_nil (splitAt_ne_nil sep cs)
    rw [splitAt] at h
    split at h
    · rcases List.mem_cons.1 h with rfl | h
      · exact List.not_mem_nil
      · exact ih h
    · next hc =>
      rw [hcut] at h
      rcases List.mem_cons.1 h with rfl | h
      · have hfirst : sep ∉ first := ih (hcut ▸ List.mem_cons_self)
        exact fun hm => (List.mem_cons.1 hm).elim (fun he => hc he.symm) hfirst
      · exact ih (hcut ▸ List.mem_cons_of_mem _ h)

/-- A separator cuts, whatever stands before it. -/
theorem splitAt_append_cons (cs rest : List Char) :
    splitAt sep (cs ++ sep :: rest) = splitAt sep cs ++ splitAt sep rest := by
  induction cs with
  | nil => simp [splitAt]
  | cons c cs ih =>
    obtain ⟨piece, pieces, h⟩ := List.exists_cons_of_ne_nil (splitAt_ne_nil sep cs)
    rw [List.cons_append, splitAt, splitAt, ih, h]
    split <;> rfl

theorem splitAt_append {cs : List Char} (h : sep ∉ cs) (rest : List Char) :
    splitAt sep (cs ++ sep :: rest) = cs :: splitAt sep rest := by
  rw [splitAt_append_cons, splitAt_of_not_mem h, List.singleton_append]

theorem splitAt_intercalate_flatMap {pieces : List (List Char)} (hne : pieces ≠ []) :
    splitAt sep ([sep].intercalate pieces) = pieces.flatMap (splitAt sep) := by
  induction pieces with
  | nil => exact absurd rfl hne
  | cons piece pieces ih =>
    cases pieces with
    | nil => simp
    | cons piece' pieces =>
      rw [List.intercalate_cons_cons, List.append_assoc, List.singleton_append,
        splitAt_append_cons, ih (by simp)]
      rfl

theorem splitAt_intercalate {pieces : List (List Char)} (hne : pieces ≠ [])
    (h : ∀ piece ∈ pieces, sep ∉ piece) : splitAt sep ([sep].intercalate pieces) = pieces := by
  have hcut : pieces.map (splitAt sep) = pieces.map fun piece => [piece] :=
    List.map_congr_left fun piece hp => splitAt_of_not_mem (h piece hp)
  rw [splitAt_intercalate_flatMap hne, List.flatMap_def, hcut, ← List.flatMap_def,
    List.flatMap_singleton']

theorem one_lt_length_splitAt {cs : List Char} (h : sep ∈ cs) : 1 < (splitAt sep cs).length := by
  obtain ⟨before, after, rfl⟩ := List.append_of_mem h
  have hb := List.length_pos_iff.2 (splitAt_ne_nil sep before)
  have ha := List.length_pos_iff.2 (splitAt_ne_nil sep after)
  rw [splitAt_append_cons, List.length_append]
  omega

theorem mem_intercalate {c d : Char} {pieces : List (List Char)}
    (h : c ∈ [d].intercalate pieces) : c = d ∨ ∃ piece ∈ pieces, c ∈ piece := by
  induction pieces with
  | nil => simp at h
  | cons piece pieces ih =>
    cases pieces with
    | nil =>
      rw [List.intercalate_singleton] at h
      exact .inr ⟨piece, List.mem_cons_self, h⟩
    | cons piece' pieces =>
      rw [List.intercalate_cons_cons, List.append_assoc, List.singleton_append, List.mem_append,
        List.mem_cons] at h
      rcases h with h | h | h
      · exact .inr ⟨piece, List.mem_cons_self, h⟩
      · exact .inl h
      · exact (ih h).imp id fun ⟨p, hp, hc⟩ => ⟨p, List.mem_cons_of_mem _ hp, hc⟩

/-! ## Lines -/

theorem chopReturn_of_not_mem {cs : List Char} (h : '\r' ∉ cs) : chopReturn cs = cs := by
  induction cs with
  | nil => rfl
  | cons c cs ih =>
    rw [List.mem_cons, not_or] at h
    rw [chopReturn, ih h.2]
    exact fun he _ => h.1 he.symm

theorem lines_append {cs : List Char} (hn : '\n' ∉ cs) (hr : '\r' ∉ cs) (rest : List Char) :
    lines (cs ++ '\n' :: rest) = cs :: lines rest := by
  rw [lines, splitAt_append hn, linesOfPieces, chopReturn_of_not_mem hr, lines]
  exact splitAt_ne_nil '\n' rest

theorem lines_flatMap {texts : List (List Char)} (hn : '\n' ∉ texts.flatten)
    (hr : '\r' ∉ texts.flatten) : lines (texts.flatMap (· ++ ['\n'])) = texts := by
  induction texts with
  | nil => rfl
  | cons cs texts ih =>
    rw [List.flatten_cons, List.mem_append, not_or] at hn hr
    rw [List.flatMap_cons, List.append_assoc, List.singleton_append, lines_append hn.1 hr.1,
      ih hn.2 hr.2]

end SchemaLang.Text
