import SchemaLang.Proofs.Compile.BuiltinNames
import SchemaLang.Proofs.Outcome
import SchemaLang.Proofs.Source.Clauses
import SchemaLang.Proofs.Validate.Attributes
import SchemaLang.Proofs.Validate.Equations

/-!
# Clauses and what they enforce

The clauses of a type are gathered into a record with one place for each measure and operator.  A
clause finds its place taken if an earlier one has the same operator and takes it over, so that of
the clauses with one operator only the last is left: `lasting` are those that are left.  They, and
no others, are checked on values of the type.

* `Source.mem_bounds_foldlM`: the bounds that are gathered from clauses.
* `Source.lasting_eq_self`: where no operator is repeated, all clauses are left.
* `validateAs_iff_lasting`: a typedef of a builtin type accepts what the builtin type reads as a
  value that the lasting clauses hold of.
* `exists_unenforced`: a value that breaks a clause is accepted.
-/

namespace SchemaLang

namespace Attributes

variable {a : Attributes} {b : Bound}

theorem mem_bounds_setNumber {c : Comparison} {x : Float} : b ∈ (a.setNumber c x).bounds
    ↔ b = ⟨.number, c, x⟩ ∨ b ∈ a.bounds ∧ ¬(b.measure = .number ∧ b.comparison = c) := by
  obtain ⟨m, d, y⟩ := b
  by_cases hd : c = d <;> cases m <;>
    simp [mem_bounds, setNumber, Bounds.get?_set, hd, eq_comm]

theorem mem_bounds_setLength {c : Comparison} {n : UInt64} : b ∈ (a.setLength c n).bounds
    ↔ b = ⟨.length, c, Float.ofNat n.toNat⟩
      ∨ b ∈ a.bounds ∧ ¬(b.measure = .length ∧ b.comparison = c) := by
  obtain ⟨m, d, y⟩ := b
  by_cases hd : c = d <;> cases m <;>
    simp [mem_bounds, setLength, Bounds.get?_set, hd, eq_comm]

end Attributes

namespace Source

namespace Clause

/-- What a clause asks of a value that has been converted already. -/
def Holds (v : Value) : Clause → Prop
  | .nullable => True
  | .number c text => ∃ x bound, v.number? = some x ∧ Number.float? text = some bound
      ∧ c.holds x bound = true
  | .length c digits => ∃ l n, v.length? = some l ∧ Number.uint64? digits = some n
      ∧ c.holds (Float.ofNat l) (Float.ofNat n.toNat) = true

instance (v : Value) : (clause : Clause) → Decidable (clause.Holds v)
  | .nullable => isTrue trivial
  | .number c text => decidable_of_iff ((v.number?.any fun x =>
      (Number.float? text).any fun bound => c.holds x bound) = true) <| by
    simp only [Holds, Option.any_eq_true, exists_and_left]
  | .length c digits => decidable_of_iff ((v.length?.any fun l =>
      (Number.uint64? digits).any fun n =>
        c.holds (Float.ofNat l) (Float.ofNat n.toNat)) = true) <| by
    simp only [Holds, Option.any_eq_true, exists_and_left]

/-- The measure and the operator that a clause is on. -/
def kind? : Clause → Option (Measure × Comparison)
  | .nullable => none
  | .number c _ => some (.number, c)
  | .length c _ => some (.length, c)

/-- Whether two clauses are on the same measure with the same operator. -/
def rivals (clause other : Clause) : Bool := clause.kind?.isSome && clause.kind? == other.kind?

/-- The bound that a clause sets. -/
def bound? : Clause → Option Bound
  | .nullable => none
  | .number c text => (Number.float? text).map fun x => ⟨.number, c, x⟩
  | .length c digits => (Number.uint64? digits).map fun n => ⟨.length, c, Float.ofNat n.toNat⟩

theorem kind?_of_bound? {clause : Clause} {b : Bound} (h : clause.bound? = some b) :
    clause.kind? = some (b.measure, b.comparison) := by
  cases clause with
  | nullable => simp [bound?] at h
  | number c text =>
    obtain ⟨x, -, rfl⟩ := Option.map_eq_some_iff.1 h
    rfl
  | length c digits =>
    obtain ⟨n, -, rfl⟩ := Option.map_eq_some_iff.1 h
    rfl

theorem holds_iff {clause : Clause} {v : Value} (h : clause.kind? ≠ none → clause.bound? ≠ none) :
    clause.Holds v ↔ ∀ b, clause.bound? = some b → b.accepts v = true := by
  cases clause with
  | nullable => simp [Holds, bound?]
  | number c text =>
    obtain ⟨x, hx⟩ := Option.ne_none_iff_exists'.1
      (mt Option.map_eq_none_iff.2 (h (Option.some_ne_none _)))
    simp [Holds, bound?, hx, Bound.accepts_iff, Value.measured?, Bound.holds]
  | length c digits =>
    obtain ⟨n, hn⟩ := Option.ne_none_iff_exists'.1
      (mt Option.map_eq_none_iff.2 (h (Option.some_ne_none _)))
    simp [Holds, bound?, hn, Bound.accepts_iff, Value.measured?, Bound.holds]

/-- A clause that is written and taken into a record sets a bound, unless it is about null. -/
theorem bound?_ne_none {clause : Clause} {text : List Char} {a a' : Attributes}
    (hw : clause.Written text) (h : clause.apply? a = .ok a') :
    clause.kind? ≠ none → clause.bound? ≠ none := by
  intro hk
  cases hw with
  | nullable => exact absurd rfl hk
  | number hg hn =>
    obtain ⟨x, hx⟩ := hn.exists_float?
    simp [bound?, hx]
  | length hg hg' hd =>
    obtain ⟨n, hn, -⟩ := apply_length_eq_ok_iff.1 h
    simp [bound?, hn]

/-- A clause puts its bound in the place of what was there. -/
theorem mem_bounds_of_apply? {clause : Clause} {text : List Char} {a a' : Attributes}
    (hw : clause.Written text) (h : clause.apply? a = .ok a') (b : Bound) :
    b ∈ a'.bounds ↔ clause.bound? = some b
      ∨ b ∈ a.bounds ∧ clause.kind? ≠ some (b.measure, b.comparison) := by
  cases hw with
  | nullable =>
    obtain rfl := Except.ok.inj h
    simp [bound?, kind?, Attributes.mem_bounds]
  | @number c _ text hg hn =>
    obtain ⟨x, hx⟩ := hn.exists_float?
    obtain rfl := Except.ok.inj h
    rw [Attributes.mem_bounds_setNumber]
    simp [bound?, kind?, hx, eq_comm]
  | @length c _ _ digits hg hg' hd =>
    obtain ⟨n, hn, rfl⟩ := apply_length_eq_ok_iff.1 h
    rw [Attributes.mem_bounds_setLength]
    simp [bound?, kind?, hn, eq_comm]

end Clause

/-! ## Clauses that are left -/

/-- The clauses that no later one takes the place of. -/
def lasting : List Clause → List Clause
  | [] => []
  | clause :: clauses =>
    if clauses.any clause.rivals then lasting clauses else clause :: lasting clauses

theorem lasting_eq_self {clauses : List Clause}
    (h : clauses.Pairwise fun clause later => clause.rivals later = false) :
    lasting clauses = clauses := by
  induction clauses with
  | nil => rfl
  | cons clause clauses ih =>
    obtain ⟨hclause, hrest⟩ := List.pairwise_cons.1 h
    have hnone : ¬clauses.any clause.rivals = true := by
      rw [Bool.not_eq_true, List.any_eq_false]
      intro later hm
      simp [hclause later hm]
    rw [lasting, if_neg hnone, ih hrest]

theorem mem_of_mem_lasting {clauses : List Clause} {clause : Clause}
    (h : clause ∈ lasting clauses) : clause ∈ clauses := by
  induction clauses with
  | nil => exact h
  | cons first clauses ih =>
    rw [lasting] at h
    split at h
    · exact List.mem_cons_of_mem _ (ih h)
    · rcases List.mem_cons.1 h with rfl | h
      · exact List.mem_cons_self
      · exact List.mem_cons_of_mem _ (ih h)

/-- A clause that sets a bound is left if no later clause is on the measure of the bound with its
operator. -/
theorem exists_lasting_cons {clause : Clause} {clauses : List Clause} {b : Bound} :
    (∃ other ∈ lasting (clause :: clauses), other.bound? = some b)
      ↔ (∃ other ∈ lasting clauses, other.bound? = some b)
        ∨ clause.bound? = some b
          ∧ ∀ later ∈ clauses, later.kind? ≠ some (b.measure, b.comparison) := by
  rw [lasting]
  by_cases hb : clause.bound? = some b
  · have hrivals : ∀ later, clause.rivals later = true
        ↔ later.kind? = some (b.measure, b.comparison) := by
      intro later
      rw [Clause.rivals, Clause.kind?_of_bound? hb, Option.isSome_some, Bool.true_and, beq_iff_eq,
        eq_comm]
    simp only [List.any_eq_true, hrivals]
    split
    · next hr =>
      obtain ⟨later, hm, hl⟩ := hr
      rw [or_iff_left fun h => h.2 later hm hl]
    · next hr =>
      refine iff_of_true ⟨clause, List.mem_cons_self, hb⟩ (.inr ⟨hb, fun later hm hl => ?_⟩)
      exact hr ⟨later, hm, hl⟩
  · split
    · simp [hb]
    · simp [hb]

/-- What is gathered from clauses: the bounds of those that are left, and the bounds from before
that none of them is on. -/
theorem mem_bounds_foldlM {clauses : List Clause} {a a' : Attributes}
    (hw : ∀ clause ∈ clauses, ∃ text, clause.Written text)
    (h : clauses.foldlM Clause.apply? a = .ok a') (b : Bound) :
    b ∈ a'.bounds ↔ (∃ clause ∈ lasting clauses, clause.bound? = some b)
      ∨ b ∈ a.bounds ∧ ∀ clause ∈ clauses, clause.kind? ≠ some (b.measure, b.comparison) := by
  induction clauses generalizing a with
  | nil =>
    obtain rfl := Except.ok.inj h
    simp [lasting]
  | cons clause clauses ih =>
    obtain ⟨⟨text, hclause⟩, hrest⟩ := List.forall_mem_cons.1 hw
    rw [List.foldlM_cons, bind_eq_ok_iff] at h
    obtain ⟨next, hnext, h⟩ := h
    rw [ih hrest h, clause.mem_bounds_of_apply? hclause hnext, exists_lasting_cons,
      List.forall_mem_cons, or_and_right, or_assoc, and_assoc]

theorem bound?_ne_none_of_foldlM {clauses : List Clause} {a a' : Attributes}
    (hw : ∀ clause ∈ clauses, ∃ text, clause.Written text)
    (h : clauses.foldlM Clause.apply? a = .ok a') :
    ∀ clause ∈ clauses, clause.kind? ≠ none → clause.bound? ≠ none := by
  induction clauses generalizing a with
  | nil => simp
  | cons clause clauses ih =>
    obtain ⟨⟨text, hclause⟩, hrest⟩ := List.forall_mem_cons.1 hw
    rw [List.foldlM_cons, bind_eq_ok_iff] at h
    obtain ⟨next, hnext, h⟩ := h
    exact List.forall_mem_cons.2 ⟨Clause.bound?_ne_none hclause hnext, ih hrest h⟩

/-- The attributes that clauses are read as are met where the lasting clauses hold. -/
theorem brokenBound?_attributes? {clauses : List Clause} {attr : Option Attributes}
    (hw : ∀ clause ∈ clauses, ∃ text, clause.Written text) (h : attributes? clauses = .ok attr)
    (v : Value) :
    brokenBound? attr v = none ↔ ∀ clause ∈ lasting clauses, clause.Holds v := by
  cases clauses with
  | nil =>
    obtain rfl := Except.ok.inj h
    simp [brokenBound?, lasting]
  | cons clause clauses =>
    obtain ⟨a, ha, rfl⟩ := map_eq_ok_iff.1 h
    have hset := bound?_ne_none_of_foldlM hw ha
    have hempty : ∀ b, b ∉ ({} : Attributes).bounds := fun b hb => List.not_mem_nil hb
    rw [brokenBound?_eq_none_iff]
    simp only [Option.some.injEq, forall_eq', Attributes.meets_iff]
    constructor
    · intro hmeets other hm
      refine (Clause.holds_iff (hset other (mem_of_mem_lasting hm))).2 fun b hb => ?_
      exact hmeets b ((mem_bounds_foldlM hw ha b).2 (.inl ⟨other, hm, hb⟩))
    · intro hholds b hb
      rcases (mem_bounds_foldlM hw ha b).1 hb with ⟨other, hm, hb⟩ | ⟨hb, -⟩
      · exact (Clause.holds_iff (hset other (mem_of_mem_lasting hm))).1 (hholds other hm) b hb
      · exact absurd hb (hempty b)

end Source

/-! ## Typedefs of builtin types -/

open Source (Line TypeExpr TypedefText lasting)

theorem TypeRef.ofName_name (b : Builtin) : TypeRef.ofName b.name = .builtin b := by
  rw [ofName, Builtin.ofName?_name]

theorem Source.TypeExpr.type?_plain {e : TypeExpr} {meaning : TypeRef × Option Attributes}
    (hplain : e.container = .plain) (h : e.type? = .ok meaning) :
    meaning.1 = TypeRef.ofName e.name ∧ attributes? e.clauses = .ok meaning.2 := by
  obtain ⟨own, hown, h⟩ := bind_eq_ok_iff.1 h
  rw [hplain] at h
  obtain rfl := Except.ok.inj h
  exact ⟨rfl, hown⟩

/-- What is defined by the line of a typedef, wherever it stands. -/
theorem Compile.get?_step_typedef {text : List Char} {name : String} {e : TypeExpr}
    (hline : Line.typedef? text = some (.typedef name e)) {meaning : TypeRef × Option Attributes}
    (hmeaning : e.type? = .ok meaning) (pos : Position) (c : Compilation) (k : Cursor) :
    ∃ t : Typedef, (step pos text c k).1.types.get? name = some (.typedef t)
      ∧ (t.type, t.attr) = meaning := by
  rw [step, Line.parse?_of_typedef? hline]
  simp only [apply, hmeaning, typedef, Compilation.types_define, NameMap.get?_insert, if_true]
  exact ⟨_, rfl, rfl⟩

/-- A value that is neither null nor its text is read at a typedef of a builtin type. -/
theorem Validate.validateAs_typedef_iff {types : Types} {name : String} {t : Typedef} {b : Builtin}
    (hget : types.get? name = some (.typedef t)) (htype : t.type = .builtin b) {v : Value}
    (hnull : v.isNull = false) (htext : v.isNullText = false) (w : Value) :
    types.validateAs name v = .ok w
      ↔ types.validate (.builtin b) v [] = .ok w ∧ brokenBound? t.attr w = none := by
  have hcircular : types.isCircular (.user name) = false := by
    rw [Types.isCircular_typedef hget, htype]
    exact Types.isCircular_of_not_isTypedef rfl
  rw [Types.validateAs_eq_ok_iff, reads_typedef_iff hget, htype, Types.validate, value_eq_ok_iff,
    NameMap.contains_of_get? hget]
  simp only [hcircular, true_and]
  constructor
  · intro h
    cases h with
    | null _ hv => simp [hnull, htext] at hv
    | value _ _ h _ hb => exact ⟨h, hb⟩
  · rintro ⟨h, hb⟩
    refine .value hnull (by simp [htext]) h ?_ hb
    by_contra hw
    rw [Bool.not_eq_false, Value.isNull_iff] at hw
    subst hw
    rcases h.isNull_or_isNullText with hv | hv
    · simp [hnull] at hv
    · simp [htext] at hv

/-- A typedef of a builtin type is as it is written, clause by clause, and takes of what is neither
null nor its text what the builtin type reads as a value that the lasting clauses hold of.  Where no
operator is repeated, these are all clauses. -/
theorem validateAs_iff_lasting {text : List Char} {name : String} {e : TypeExpr}
    (hline : Line.typedef? text = some (.typedef name e)) (hplain : e.container = .plain)
    {b : Builtin} (hname : e.name = b.name) {meaning : TypeRef × Option Attributes}
    (hmeaning : e.type? = .ok meaning) {pos : Position} {c : Compilation} {k : Cursor}
    {types : Types} (hkept : types.get? name = (Compile.step pos text c k).1.types.get? name)
    {v : Value} (hnull : v.isNull = false) (htext : v.isNullText = false) :
    TypedefText b.name e.clauses name text
      ∧ (∀ w, types.validateAs name v = .ok w
        ↔ types.validate (.builtin b) v [] = .ok w ∧ ∀ clause ∈ lasting e.clauses, clause.Holds w)
      ∧ ((e.clauses.Pairwise fun clause later => clause.rivals later = false) →
        lasting e.clauses = e.clauses) := by
  have hwritten := Line.typedefText_of_typedef? hline hplain
  rw [hname] at hwritten
  refine ⟨hwritten, fun w => ?_, Source.lasting_eq_self⟩
  obtain ⟨t, hget, rfl⟩ := Compile.get?_step_typedef hline hmeaning pos c k
  obtain ⟨htype, hattr⟩ := Source.TypeExpr.type?_plain hplain hmeaning
  rw [hname, TypeRef.ofName_name] at htype
  cases hwritten with
  | mk hg ho hg' ht =>
    rw [Validate.validateAs_typedef_iff (hkept.trans hget) htype hnull htext,
      Source.brokenBound?_attributes? ho.exists_text hattr]

/-- An interval whose ends are written in any order, and null. -/
def intervalLine : List Char := "typedef int(<= 10, nullable,>= -0.5) T".toList

def intervalType : TypeExpr :=
  ⟨"int", [.number .lte "10".toList, .nullable, .number .gte "-0.5".toList], .plain⟩

def intervalRead : Line :=
  Line.typedef "T" intervalType

/-- Both ends hold of a number that is read from a text. -/
theorem validateAs_iff_lasting_interval :
    Line.typedef? intervalLine = some intervalRead
      ∧ (∃ meaning, intervalType.type? = .ok meaning)
      ∧ (Compile.step ⟨"", 1⟩ intervalLine {} {}).1.types.validateAs "T" (.string " 3")
        = .ok (.int 3) := by
  have hline : Line.typedef? intervalLine = some intervalRead := by decide +kernel
  obtain ⟨meaning, hmeaning, -⟩ : ∃ meaning, intervalType.type? = .ok meaning ∧ true = true :=
    exists_ok_of_any (by decide +kernel)
  have htext : (Value.string " 3").isNullText = false := by decide
  obtain ⟨-, hiff, hall⟩ := validateAs_iff_lasting (b := .int) hline rfl rfl hmeaning
    (Eq.refl ((Compile.step ⟨"", 1⟩ intervalLine {} {}).1.types.get? "T")) rfl htext
  have hread : Builtin.int.convert? (.string " 3") = some (.int 3) := by cbv
  refine ⟨hline, ⟨meaning, hmeaning⟩, (hiff _).2 ⟨?_, ?_⟩⟩
  · exact Validate.value_eq_ok_iff.2 (Validate.reads_builtin_iff.2 hread)
  · rw [hall (by decide +kernel)]
    decide +kernel

/-- A schema with a bound that a later one with its operator takes the place of. -/
def loosened : String := "typedef int(> 5, > 0) T"

def loosenedRead : Line :=
  Line.typedef "T" ⟨"int", [.number .gt ['5'], .number .gt ['0']], .plain⟩

/-- The first bound is written and is not enforced. -/
theorem exists_unenforced :
    ∃ types, compile loosened = .ok types ∧ Line.typedef? loosened.toList = some loosenedRead
      ∧ ∃ w, types.validateAs "T" (.int 3) = .ok w
        ∧ ¬(Source.Clause.number .gt ['5']).Holds w := by
  obtain ⟨types, hcompile, haccepts⟩ := exists_ok_of_any (x := compile loosened)
    (p := fun types => (types.validateAs "T" (.int 3)).toOption.any fun w =>
      decide ¬(Source.Clause.number .gt ['5']).Holds w) (by decide +kernel)
  obtain ⟨w, hw, hbroken⟩ := exists_ok_of_any haccepts
  exact ⟨types, hcompile, by decide +kernel, w, hw, of_decide_eq_true hbroken⟩

end SchemaLang
