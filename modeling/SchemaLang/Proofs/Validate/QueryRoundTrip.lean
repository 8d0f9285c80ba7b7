import SchemaLang.Proofs.Query.RoundTrip
import SchemaLang.Proofs.Validate.Idempotence
import SchemaLang.Proofs.Validate.Reordered

/-!
# Values from queries and back

A query keeps the texts of a value only, and the members of its objects in order.  Where every
builtin type tells its values by their texts, validation brings the value back; where `any` or
`object` is reached, it cannot know what a text has been.

* `validateAs_decode_encode`: the round trip of a struct.
-/

namespace SchemaLang

open Value (Plain Writable asTexts Rearranged)

namespace Validate

variable {types : Types}

theorem Reads.eq_object {name : String} {s : Struct} {v w : Value}
    (hd : types.get? name = some (.struct s)) (h : Reads types (.type (.user name)) v w) :
    ∃ entries, w = .object entries := by
  obtain ⟨_, _, _, _, _, _, _, rfl⟩ := (reads_struct_iff hd).1 h
  exact ⟨_, rfl⟩

/-- What a query has been read as is read as the value that has been written into it. -/
theorem Reads.of_query (hs : types.Sound) {name : String} {v : Value}
    {entries : List (Key × Value)} (hv : v.Throughout Plain)
    (hb : ∀ b, types.Reaches (.user name) (.builtin b) → b.Textual)
    (h : Reads types (.type (.user name)) v (.object entries)) :
    ∃ w', Reads types (.type (.user name)) (asTexts Query.sortByName (.object entries)) w'
      ∧ types.Reordered (.user name) w' (.object entries) := by
  have hw := h.writable hs trivial hv
  have ht := h.restate restating_asTexts hs trivial hb trivial ⟨rfl, hw⟩
  exact ht.rearrange hs trivial hb (Value.writable_asTexts hw)
    (Value.rearranged_asTexts (.object entries))

end Validate

theorem get?_sample : Types.sample.get? "Tally" = some (.struct Struct.sample) := by rfl

/-- What the sample types use, from `Tally` on. -/
theorem textual_sample (b : Builtin) (h : Types.sample.Reaches (.user "Tally") (.builtin b)) :
    b.Textual := by
  have hs := Types.sound_of_lint Types.lint_sample
  have hmembers : (Types.sample.members Struct.sample).map Member.type
      = [.builtin .date, .dict (.user "Count") (some { nullable := true }) (some (.user "Color"))
        (some { nullable := true }), .array (.builtin .string) none] := by rfl
  have hcount : ∃ t, Types.sample.get? "Count" = some (.typedef t) ∧ t.type = .builtin .int :=
    ⟨_, rfl, rfl⟩
  have hcolor : ∃ e, Types.sample.get? "Color" = some (.enum e) := ⟨_, rfl⟩
  have hclosed := h.closed (P := fun ty => ty = .user "Tally" ∨ ty = .user "Count"
    ∨ ty = .user "Color" ∨ (∃ b : Builtin, ty = .builtin b ∧ b.Textual)
    ∨ ty = .array (.builtin .string) none
    ∨ ty = .dict (.user "Count") (some { nullable := true }) (some (.user "Color"))
      (some { nullable := true })) (.inl rfl) ?_
  · rcases hclosed with hc | hc | hc | ⟨c, hc, ht⟩ | hc | hc
    · simp at hc
    · simp at hc
    · simp at hc
    · cases hc
      exact ht
    · simp at hc
    · simp at hc
  · rintro a c (rfl | rfl | rfl | ⟨b, rfl, hb⟩ | rfl | rfl) hu
    · obtain ⟨m, hm, rfl⟩ := hu.exists_member get?_sample
      have hmem := List.mem_map_of_mem (f := Member.type)
        ((Types.mem_walk_iff (hs.structWalk get?_sample)).2 hm)
      change m.type ∈ (Types.sample.members Struct.sample).map Member.type at hmem
      rw [hmembers] at hmem
      simp only [List.mem_cons, List.not_mem_nil, or_false] at hmem
      rcases hmem with he | he | he
      · exact .inr (.inr (.inr (.inl ⟨.date, he, by decide⟩)))
      · exact .inr (.inr (.inr (.inr (.inr he))))
      · exact .inr (.inr (.inr (.inr (.inl he))))
    · obtain ⟨t, ht, htype⟩ := hcount
      rw [hu.eq_of_typedef ht, htype]
      exact .inr (.inr (.inr (.inl ⟨.int, rfl, by decide⟩)))
    · obtain ⟨e, he⟩ := hcolor
      exact (hu.false_of_enum he).elim
    · cases hu
    · cases hu
      exact .inr (.inr (.inr (.inl ⟨.string, rfl, by decide⟩)))
    · cases hu
      · exact .inr (.inl rfl)
      · exact .inr (.inr (.inl rfl))

theorem addressable_sample : Value.sampleRead.Throughout Query.Addressable := by
  refine .object ⟨by decide, by decide⟩ ?_
  simp only [List.forall_mem_cons, List.not_mem_nil, false_imp_iff, implies_true, and_true]
  refine ⟨.scalar rfl trivial, .object ⟨by decide, by decide⟩ ?_, .array trivial (by simp)⟩
  simp only [List.forall_mem_cons, List.not_mem_nil, false_imp_iff, implies_true, and_true]
  exact ⟨.scalar rfl trivial, .scalar rfl trivial⟩

theorem validateAs_decode_encode {types : Types} {name : String} {s : Struct} {j : Json}
    {w : Value} (hl : types.lint = []) (hd : types.get? name = some (.struct s))
    (hb : ∀ b, types.Reaches (.user name) (.builtin b) → b.Textual) (hj : j.Valid)
    (h : types.validateAs name (.ofJson j) = .ok w) (ha : w.Throughout Query.Addressable) :
    ∃ u, Query.decode (Query.encode w) = .ok u
      ∧ ∃ w', types.validateAs name u = .ok w' ∧ types.Reordered (.user name) w' w := by
  obtain ⟨hc, hr⟩ := Types.validateAs_eq_ok_iff.1 h
  have hs := Types.sound_of_lint hl
  have hv := Value.plain_ofJson hj
  obtain ⟨entries, rfl⟩ := hr.eq_object hd
  by_cases hne : entries = []
  · subst hne
    have hself := hr.restate Validate.restating_eq hs trivial (fun _ _ => trivial) trivial rfl
    exact ⟨_, Query.decode_encode_empty, _, Types.validateAs_eq_ok_iff.2 ⟨hc, hself⟩, .refl _ _⟩
  · obtain ⟨w', hw', hre⟩ := hr.of_query hs hv hb
    exact ⟨_, Query.decode_encode_object hne (hr.writable hs trivial hv) ha, w',
      Types.validateAs_eq_ok_iff.2 ⟨hc, hw'⟩, hre⟩

theorem validateAs_decode_encode_sample :
    Types.sample.lint = []
      ∧ Types.sample.get? "Tally" = some (.struct Struct.sample)
      ∧ (∀ b, Types.sample.Reaches (.user "Tally") (.builtin b) → b.Textual)
      ∧ Json.sample.Valid
      ∧ Types.sample.validateAs "Tally" (.ofJson Json.sample) = .ok Value.sampleRead
      ∧ Value.sampleRead.Throughout Query.Addressable
      ∧ ∃ u, Query.decode (Query.encode Value.sampleRead) = .ok u
        ∧ ∃ w', Types.sample.validateAs "Tally" u = .ok w'
          ∧ Types.sample.Reordered (.user "Tally") w' Value.sampleRead :=
  ⟨Types.lint_sample, get?_sample, textual_sample, Json.valid_sample, validateAs_sample,
    addressable_sample, validateAs_decode_encode Types.lint_sample get?_sample textual_sample
      Json.valid_sample validateAs_sample addressable_sample⟩

end SchemaLang
