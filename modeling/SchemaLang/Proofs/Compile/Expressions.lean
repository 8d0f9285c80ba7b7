import SchemaLang.Proofs.Source.ExpressionLines
import SchemaLang.Proofs.Validate.Clauses

/-!
# What type expressions define

A type expression has up to four lists of clauses: of the element or the value, of the key, and of
the container.  `TypeExpr.Means` says which type and which attributes an expression stands for, each
list of clauses at its own level: a clause sets what it is about, and nothing else is set.  Where no
operator is repeated in a list and every count fits, every expression means something, and one thing
only.  A line that is written with the expression defines just that.

* `Clause.place_foldlM`: what a list of clauses leaves in one place.
* `TypeExpr.means_iff`: the meaning that is read is the one meaning of an expression.
* `Compilation.reads_expressions`: typedefs and members, wherever they stand.
-/

namespace SchemaLang

/-! ## What clauses say -/

namespace Source

/-- Attributes say what clauses say, each one under its own operator. -/
structure Says (clauses : List Clause) (a : Attributes) : Prop where
  nullable : a.nullable = true ↔ Clause.nullable ∈ clauses
  number : ∀ c x, a.number.get? c = some x
    ↔ ∃ text, Clause.number c text ∈ clauses ∧ Number.float? text = some x
  length : ∀ c n, a.length.get? c = some n
    ↔ ∃ digits, Clause.length c digits ∈ clauses ∧ Number.digitsValue digits = n.toNat

/-- Without clauses there are no attributes. -/
inductive Attributed : List Clause → Option Attributes → Prop
  | none : Attributed [] none
  | some {clauses : List Clause} {a : Attributes} (hne : clauses ≠ []) (h : Says clauses a) :
      Attributed clauses (some a)

/-- A count is of 64 bits. -/
def Clause.Fits : Clause → Prop
  | .length _ digits => Number.digitsValue digits < 2 ^ 64
  | _ => True

instance : (clause : Clause) → Decidable clause.Fits
  | .length _ digits => inferInstanceAs (Decidable (Number.digitsValue digits < 2 ^ 64))
  | .nullable => isTrue trivial
  | .number _ _ => isTrue trivial

/-- A list in which no operator is repeated and every count fits. -/
structure Orderly (clauses : List Clause) : Prop where
  distinct : clauses.Pairwise fun clause later => clause.rivals later = false
  fits : ∀ clause ∈ clauses, clause.Fits

end Source

theorem Bounds.ext_get? {α : Type} {a b : Bounds α} (h : ∀ c, a.get? c = b.get? c) : a = b := by
  obtain ⟨_, _, _, _, _⟩ := a
  obtain ⟨_, _, _, _, _⟩ := b
  have heq := h .eq
  have hlt := h .lt
  have hlte := h .lte
  have hgt := h .gt
  have hgte := h .gte
  simp only [Bounds.get?] at heq hlt hlte hgt hgte
  subst heq hlt hlte hgt hgte
  rfl

namespace Source

theorem Says.unique {clauses : List Clause} {a b : Attributes} (ha : Says clauses a)
    (hb : Says clauses b) : a = b := by
  obtain ⟨nullable, number, length⟩ := a
  obtain ⟨nullable', number', length'⟩ := b
  have hnullable : nullable = nullable' :=
    Bool.eq_iff_iff.2 (ha.nullable.trans hb.nullable.symm)
  have hnumber : number = number' :=
    Bounds.ext_get? fun c => Option.ext fun x => (ha.number c x).trans (hb.number c x).symm
  have hlength : length = length' :=
    Bounds.ext_get? fun c => Option.ext fun n => (ha.length c n).trans (hb.length c n).symm
  rw [hnullable, hnumber, hlength]

theorem Attributed.unique {clauses : List Clause} {a b : Option Attributes}
    (ha : Attributed clauses a) (hb : Attributed clauses b) : a = b := by
  cases ha with
  | none =>
    cases hb with
    | none => rfl
    | some hne => exact absurd rfl hne
  | some hne ha =>
    cases hb with
    | none => exact absurd rfl hne
    | some _ hb => rw [ha.unique hb]

/-! ## What is read from clauses -/

namespace Clause

/-- What a clause says on null. -/
def null? : Clause → Option Unit
  | nullable => some ()
  | _ => none

/-- What a clause says on a comparison of a number. -/
def numberFor? (c : Comparison) : Clause → Option Float
  | .number c' text => if c' = c then Number.float? text else none
  | _ => none

/-- What a clause says on a comparison of a length. -/
def lengthFor? (c : Comparison) : Clause → Option UInt64
  | .length c' digits => if c' = c then Number.uint64? digits else none
  | _ => none

theorem null?_eq_some_iff {clause : Clause} : clause.null? = some () ↔ clause = .nullable := by
  cases clause <;> simp [null?]

theorem numberFor?_eq_some_iff {clause : Clause} {c : Comparison} {x : Float} :
    clause.numberFor? c = some x
      ↔ ∃ text, clause = .number c text ∧ Number.float? text = some x := by
  cases clause with
  | number c' text =>
    by_cases h : c' = c
    · simp [numberFor?, h]
    · simp [numberFor?, h]
  | _ => simp [numberFor?]

theorem lengthFor?_eq_some_iff {clause : Clause} {c : Comparison} {n : UInt64} :
    clause.lengthFor? c = some n
      ↔ ∃ digits, clause = .length c digits ∧ Number.uint64? digits = some n := by
  cases clause with
  | length c' digits =>
    by_cases h : c' = c
    · simp [lengthFor?, h]
    · simp [lengthFor?, h]
  | _ => simp [lengthFor?]

variable {α : Type} {f : Attributes → Option α} {g : Clause → Option α} {clauses : List Clause}

/-- What is left in one place of the attributes is what the clauses say on it, if they agree, or
what stood there before. -/
theorem place_foldlM {a b : Attributes}
    (hstep : ∀ clause ∈ clauses, ∀ a b, clause.apply? a = .ok b → f b = (g clause).or (f a))
    (hagree : clauses.Pairwise fun clause later =>
      ∀ x y, g clause = some x → g later = some y → x = y)
    (h : clauses.foldlM Clause.apply? a = .ok b) (x : α) :
    f b = some x ↔ (∃ clause ∈ clauses, g clause = some x)
      ∨ f a = some x ∧ ∀ clause ∈ clauses, g clause = none := by
  induction clauses generalizing a with
  | nil =>
    obtain rfl := Except.ok.inj h
    simp
  | cons clause clauses ih =>
    obtain ⟨hclause, hsteps⟩ := List.forall_mem_cons.1 hstep
    obtain ⟨hfirst, hrest⟩ := List.pairwise_cons.1 hagree
    rw [List.foldlM_cons, bind_eq_ok_iff] at h
    obtain ⟨next, hnext, h⟩ := h
    rw [ih hsteps hrest h, hclause a next hnext]
    cases hg : g clause with
    | none => simp [hg]
    | some y =>
      simp only [Option.some_or, Option.some.injEq, List.exists_mem_cons_iff, hg,
        List.forall_mem_cons, reduceCtorEq, false_and, and_false, or_false]
      constructor
      · rintro (h | ⟨rfl, -⟩)
        · exact .inr h
        · exact .inl rfl
      · rintro (rfl | h)
        -- A later clause that says something agrees with this one.
        · by_cases hlater : ∃ later ∈ clauses, g later = some y
          · exact .inl hlater
          · refine .inr ⟨rfl, fun later hm => ?_⟩
            rw [Option.eq_none_iff_forall_ne_some]
            intro z hz
            obtain rfl := hfirst later hm y z hg hz
            exact hlater ⟨later, hm, hz⟩
        · exact .inl h

/-- Clauses on one operator that are no rivals are one clause. -/
theorem agree_of_distinct {kind : Measure × Comparison}
    (hkind : ∀ clause x, g clause = some x → clause.kind? = some kind)
    (h : clauses.Pairwise fun clause later => clause.rivals later = false) :
    clauses.Pairwise fun clause later => ∀ x y, g clause = some x → g later = some y → x = y := by
  refine h.imp ?_
  intro clause later hrivals x y hx hy
  rw [rivals, hkind clause x hx, hkind later y hy] at hrivals
  simp at hrivals

section

variable {clause : Clause} {a b : Attributes}

theorem null?_eq_of_apply (h : clause.apply? a = .ok b) :
    (if b.nullable then some () else none)
      = clause.null?.or (if a.nullable then some () else none) := by
  cases clause with
  | nullable =>
    obtain rfl := Except.ok.inj h
    rfl
  | number c text =>
    obtain rfl := Except.ok.inj h
    rfl
  | length c digits =>
    obtain ⟨n, -, rfl⟩ := apply_length_eq_ok_iff.1 h
    rfl

theorem numberFor?_eq_of_apply {text : List Char} (hw : clause.Written text)
    (h : clause.apply? a = .ok b) (c : Comparison) :
    b.number.get? c = (clause.numberFor? c).or (a.number.get? c) := by
  cases hw with
  | nullable =>
    obtain rfl := Except.ok.inj h
    rfl
  | @number c' _ text hg hn =>
    obtain rfl := Except.ok.inj h
    obtain ⟨x, hx⟩ := hn.exists_float?
    rw [Attributes.setNumber, Bounds.get?_set, numberFor?, hx]
    split <;> rfl
  | length hg hg' hd =>
    obtain ⟨n, -, rfl⟩ := apply_length_eq_ok_iff.1 h
    rfl

theorem lengthFor?_eq_of_apply (h : clause.apply? a = .ok b) (c : Comparison) :
    b.length.get? c = (clause.lengthFor? c).or (a.length.get? c) := by
  cases clause with
  | nullable =>
    obtain rfl := Except.ok.inj h
    rfl
  | number c' text =>
    obtain rfl := Except.ok.inj h
    rfl
  | length c' digits =>
    obtain ⟨n, hn, rfl⟩ := apply_length_eq_ok_iff.1 h
    rw [Attributes.setLength, Bounds.get?_set, lengthFor?, hn]
    split <;> rfl

end

end Clause

theorem Digits.uint64?_eq_some_iff {digits : List Char} (h : Digits digits) {n : UInt64} :
    Number.uint64? digits = some n ↔ Number.digitsValue digits = n.toNat := by
  have hnatural : Number.natural? digits = some (Number.digitsValue digits) :=
    if_pos ⟨h.1, List.all_eq_true.2 h.2⟩
  rw [Number.uint64?, hnatural, Option.bind_some, Option.ite_none_right_eq_some,
    Option.some.injEq]
  constructor
  · rintro ⟨hlt, rfl⟩
    exact (UInt64.toNat_ofNat_of_lt hlt).symm
  · intro hn
    rw [hn]
    exact ⟨n.toNat_lt_size, UInt64.ofNat_toNat⟩

theorem says_of_foldlM {clauses : List Clause} {a : Attributes}
    (hw : ∀ clause ∈ clauses, ∃ text, clause.Written text)
    (hd : clauses.Pairwise fun clause later => clause.rivals later = false)
    (h : clauses.foldlM Clause.apply? {} = .ok a) : Says clauses a := by
  constructor
  · have hplace := Clause.place_foldlM (f := fun a => if a.nullable then some () else none)
      (fun clause _ a b => Clause.null?_eq_of_apply)
      (List.pairwise_iff_forall_sublist.2 fun _ _ _ _ _ => rfl) h ()
    simpa [Clause.null?_eq_some_iff] using hplace
  · intro c x
    have hkind : ∀ clause x, Clause.numberFor? c clause = some x
        → clause.kind? = some (.number, c) := by
      intro clause x hx
      obtain ⟨text, rfl, -⟩ := Clause.numberFor?_eq_some_iff.1 hx
      rfl
    have hstep : ∀ clause ∈ clauses, ∀ a b, clause.apply? a = .ok b →
        b.number.get? c = (clause.numberFor? c).or (a.number.get? c) := by
      intro clause hm a b hab
      obtain ⟨text, hwritten⟩ := hw clause hm
      exact Clause.numberFor?_eq_of_apply hwritten hab c
    have hempty : ({} : Attributes).number.get? c = none := by cases c <;> rfl
    rw [Clause.place_foldlM (f := fun a => a.number.get? c) hstep
      (Clause.agree_of_distinct hkind hd) h x]
    simp only [hempty, reduceCtorEq, false_and, or_false, Clause.numberFor?_eq_some_iff]
    constructor
    · rintro ⟨_, hm, text, rfl, hx⟩
      exact ⟨text, hm, hx⟩
    · rintro ⟨text, hm, hx⟩
      exact ⟨_, hm, text, rfl, hx⟩
  · intro c n
    have hkind : ∀ clause n, Clause.lengthFor? c clause = some n
        → clause.kind? = some (.length, c) := by
      intro clause n hn
      obtain ⟨digits, rfl, -⟩ := Clause.lengthFor?_eq_some_iff.1 hn
      rfl
    have hempty : ({} : Attributes).length.get? c = none := by cases c <;> rfl
    have hdigits : ∀ digits, Clause.length c digits ∈ clauses → Digits digits := by
      intro digits hm
      obtain ⟨_, hwritten⟩ := hw _ hm
      cases hwritten with
      | length hg hg' hd => exact hd
    rw [Clause.place_foldlM (f := fun a => a.length.get? c)
      (fun clause _ a b hab => Clause.lengthFor?_eq_of_apply hab c)
      (Clause.agree_of_distinct hkind hd) h n]
    simp only [hempty, reduceCtorEq, false_and, or_false, Clause.lengthFor?_eq_some_iff]
    constructor
    · rintro ⟨_, hm, digits, rfl, hn⟩
      exact ⟨digits, hm, (hdigits digits hm).uint64?_eq_some_iff.1 hn⟩
    · rintro ⟨digits, hm, hn⟩
      exact ⟨_, hm, digits, rfl, (hdigits digits hm).uint64?_eq_some_iff.2 hn⟩

/-- A clause can be taken, unless its count is too large. -/
theorem Clause.exists_applied {clause : Clause} {text : List Char} (hw : clause.Written text)
    (hf : clause.Fits) (a : Attributes) : ∃ b, clause.apply? a = .ok b := by
  cases hw with
  | nullable => exact ⟨_, rfl⟩
  | number hg hn => exact ⟨_, rfl⟩
  | @length c _ _ digits hg hg' hd =>
    have hn : Number.uint64? digits = some (UInt64.ofNat (Number.digitsValue digits)) :=
      hd.uint64?_eq_some_iff.2 (UInt64.toNat_ofNat_of_lt hf).symm
    exact ⟨_, apply_length_eq_ok_iff.2 ⟨_, hn, rfl⟩⟩

theorem exists_foldlM {clauses : List Clause}
    (h : ∀ clause ∈ clauses, ∀ a, ∃ b, clause.apply? a = .ok b) (a : Attributes) :
    ∃ b, clauses.foldlM Clause.apply? a = .ok b := by
  induction clauses generalizing a with
  | nil => exact ⟨a, rfl⟩
  | cons clause clauses ih =>
    obtain ⟨hclause, hrest⟩ := List.forall_mem_cons.1 h
    obtain ⟨next, hnext⟩ := hclause a
    obtain ⟨b, hb⟩ := ih hrest next
    exact ⟨b, bind_eq_ok_iff.2 ⟨next, hnext, hb⟩⟩

theorem exists_attributed {clauses : List Clause}
    (hw : ∀ clause ∈ clauses, ∃ text, clause.Written text) (hp : Orderly clauses) :
    ∃ attr, attributes? clauses = .ok attr ∧ Attributed clauses attr := by
  cases clauses with
  | nil => exact ⟨none, rfl, .none⟩
  | cons clause clauses =>
    have happly : ∀ other ∈ clause :: clauses, ∀ a, ∃ b, other.apply? a = .ok b := by
      intro other hm
      obtain ⟨text, hwritten⟩ := hw other hm
      exact other.exists_applied hwritten (hp.fits other hm)
    obtain ⟨a, ha⟩ := exists_foldlM happly {}
    exact ⟨some a, map_eq_ok_iff.2 ⟨a, ha, rfl⟩,
      .some (List.cons_ne_nil _ _) (says_of_foldlM hw hp.distinct ha)⟩

/-! ## Type expressions -/

/-- The type that an expression stands for and the attributes of the whole. -/
inductive TypeExpr.Means : TypeExpr → TypeRef → Option Attributes → Prop
  | plain {name : String} {clauses : List Clause} {attr : Option Attributes}
      (h : Attributed clauses attr) : Means ⟨name, clauses, .plain⟩ (.ofName name) attr
  | array {name : String} {own clauses : List Clause} {element attr : Option Attributes}
      (ho : Attributed own element) (h : Attributed clauses attr) :
      Means ⟨name, own, .array clauses⟩ (.array (.ofName name) element) attr
  | dict {name : String} {own clauses : List Clause} {value attr : Option Attributes}
      (ho : Attributed own value) (h : Attributed clauses attr) :
      Means ⟨name, own, .dict clauses⟩ (.dict (.ofName name) value none none) attr
  | keyed {name valueName : String} {own valueClauses clauses : List Clause}
      {key value attr : Option Attributes} (ho : Attributed own key)
      (hv : Attributed valueClauses value) (h : Attributed clauses attr) :
      Means ⟨name, own, .keyed valueName valueClauses clauses⟩
        (.dict (.ofName valueName) value (some (.ofName name)) key) attr

/-- The lists of clauses in an expression. -/
def TypeExpr.lists (e : TypeExpr) : List (List Clause) :=
  e.clauses :: match e.container with
    | .plain => []
    | .array clauses => [clauses]
    | .dict clauses => [clauses]
    | .keyed _ valueClauses clauses => [valueClauses, clauses]

theorem TypeExpr.Means.unique {e : TypeExpr} {type type' : TypeRef}
    {attr attr' : Option Attributes} (h : e.Means type attr) (h' : e.Means type' attr') :
    type' = type ∧ attr' = attr := by
  cases h with
  | plain h =>
    cases h' with
    | plain h' => exact ⟨rfl, h'.unique h⟩
  | array ho h =>
    cases h' with
    | array ho' h' => exact ⟨by rw [ho'.unique ho], h'.unique h⟩
  | dict ho h =>
    cases h' with
    | dict ho' h' => exact ⟨by rw [ho'.unique ho], h'.unique h⟩
  | keyed ho hv h =>
    cases h' with
    | keyed ho' hv' h' => exact ⟨by rw [ho'.unique ho, hv'.unique hv], h'.unique h⟩

theorem Between.exists_text {opening closing : Char} {clauses : List Clause} {text : List Char}
    (h : Between opening closing clauses text) :
    ∀ clause ∈ clauses, ∃ part, clause.Written part := by
  cases h with
  | none hg => simp
  | some hg hl hg' => exact hl.exists_text

/-- An expression that is written means what it is read as. -/
theorem TypeExpr.exists_means {e : TypeExpr} {text : List Char} (hw : e.Written text)
    (hp : ∀ clauses ∈ e.lists, Orderly clauses) :
    ∃ type attr, e.type? = .ok (type, attr) ∧ e.Means type attr := by
  cases hw with
  | @mk name own container _ _ hn ho hc =>
    obtain ⟨hown, hlists⟩ := List.forall_mem_cons.1 hp
    obtain ⟨ownAttr, hownRead, hownMeans⟩ := exists_attributed ho.exists_text hown
    cases hc with
    | plain =>
      exact ⟨_, _, bind_eq_ok_iff.2 ⟨ownAttr, hownRead, rfl⟩, .plain hownMeans⟩
    | @array clauses _ _ hg hb =>
      obtain ⟨attr, hread, hmeans⟩ :=
        exists_attributed hb.exists_text (hlists clauses List.mem_cons_self)
      exact ⟨_, _, bind_eq_ok_iff.2 ⟨ownAttr, hownRead, bind_eq_ok_iff.2 ⟨attr, hread, rfl⟩⟩,
        .array hownMeans hmeans⟩
    | @dict clauses _ _ hg hb =>
      obtain ⟨attr, hread, hmeans⟩ :=
        exists_attributed hb.exists_text (hlists clauses List.mem_cons_self)
      exact ⟨_, _, bind_eq_ok_iff.2 ⟨ownAttr, hownRead, bind_eq_ok_iff.2 ⟨attr, hread, rfl⟩⟩,
        .dict hownMeans hmeans⟩
    | @keyed value valueClauses clauses _ _ _ _ _ hg hg' hname hv hg'' hb =>
      obtain ⟨hvalue, hrest⟩ := List.forall_mem_cons.1 hlists
      obtain ⟨valueAttr, hvalueRead, hvalueMeans⟩ := exists_attributed hv.exists_text hvalue
      obtain ⟨attr, hread, hmeans⟩ :=
        exists_attributed hb.exists_text (hrest clauses List.mem_cons_self)
      exact ⟨_, _, bind_eq_ok_iff.2 ⟨ownAttr, hownRead, bind_eq_ok_iff.2
        ⟨valueAttr, hvalueRead, bind_eq_ok_iff.2 ⟨attr, hread, rfl⟩⟩⟩,
        .keyed hownMeans hvalueMeans hmeans⟩

end Source

/-! ## Lines -/

open Source (TypeExpr Line Clause InParentheses Between IsName TypedefLine MemberLine Orderly)

namespace Compile

variable {pos : Position} {c : Compilation} {k : Cursor} {text : List Char} {name : String}
variable {e : TypeExpr} {type : TypeRef} {attr : Option Attributes}

/-- Nothing is reported of a typedef but that its name is taken. -/
theorem step_typedef (hread : Line.parse? (k.place c) text = some (.typedef name e))
    (htype : e.type? = .ok (type, attr)) :
    (step pos text c k).1.types = c.types.insert name
        (.typedef { name, doc := k.doc?, docGroup := k.group, type, attr })
      ∧ (step pos text c k).1.log
        = (c.reportIf (c.isTaken name) pos (.typeRedefined name)).log := by
  rw [step, hread]
  simp only [apply, htype]
  exact ⟨by rw [typedef, Compilation.types_define, Compilation.types_reportIf], rfl⟩

theorem step_member {optional : Bool} {key : String} {s : Struct}
    (hread : Line.parse? (k.place c) text = some (.member optional name e))
    (htype : e.type? = .ok (type, attr)) (hopen : k.block.type? = some key)
    (hget : c.types.get? key = some (.struct s)) :
    (step pos text c k).1.types = c.types.insert key (.struct { s with
        members := some (s.members.getD [] ++ [{ name, doc := k.doc?, type, attr, optional }]) })
      ∧ (step pos text c k).1.log = c.log := by
  rw [step, hread]
  simp only [apply, htype, member, hopen, Option.bind_some, hget, Definition.struct?,
    Option.map_some]
  exact ⟨rfl, rfl⟩

/-- Every expression means one thing, and a line that is written with it, as a typedef anywhere or
as a member where a struct is open, defines its name with that type and these attributes. -/
theorem step_written {expr : List Char} (hw : e.Written expr)
    (hp : ∀ clauses ∈ e.lists, Orderly clauses) (hn : IsName name) :
    ∃ type attr, (∀ type' attr', e.Means type' attr' ↔ type' = type ∧ attr' = attr)
      ∧ (∀ text, TypedefLine expr name text → ∀ pos (c : Compilation) (k : Cursor),
        (step pos text c k).1.types = c.types.insert name
            (.typedef { name, doc := k.doc?, docGroup := k.group, type, attr })
          ∧ (step pos text c k).1.log
            = (c.reportIf (c.isTaken name) pos (.typeRedefined name)).log)
      ∧ (∀ optional text, MemberLine expr name optional text →
        ∀ pos (c : Compilation) (k : Cursor) key s, k.block.type? = some key →
          c.types.get? key = some (.struct s) →
          (step pos text c k).1.types = c.types.insert key (.struct { s with
              members := some (s.members.getD []
                ++ [{ name, doc := k.doc?, type, attr, optional }]) })
            ∧ (step pos text c k).1.log = c.log) := by
  obtain ⟨type, attr, htype, hmeans⟩ := TypeExpr.exists_means hw hp
  refine ⟨type, attr, fun type' attr' => ⟨hmeans.unique, ?_⟩, ?_, ?_⟩
  · rintro ⟨rfl, rfl⟩
    exact hmeans
  · intro text hl pos c k
    exact step_typedef (Line.parse?_typedef hw hn hl _) htype
  · intro optional text hl pos c k key s hopen hget
    have hplace : k.block.type?.bind c.types.get? = some (.struct s) := by
      rw [hopen, Option.bind_some, hget]
    have hmembers : (k.place c).members = true := by
      simp only [Cursor.place, hplace]
      rfl
    have hvalues : (k.place c).values = false := by
      simp only [Cursor.place, hplace]
      rfl
    exact step_member (Line.parse?_member hw hn hl hmembers hvalues) htype hopen hget

/-! ### A dict with a key type -/

/-- Clauses at all three levels. -/
def tallies : TypeExpr :=
  ⟨"string", [.length .gt ['0']],
    .keyed "int" [.number .gte "-1.5".toList, .nullable] [.length .lte "10".toList]⟩

def talliesText : List Char :=
  "string (len>\t0):int( >= -1.5 ,nullable)\t\x7blen <=10 \x7d".toList

theorem written_tallies : tallies.Written talliesText := by
  have hkey : InParentheses [.length .gt ['0']] " (len>\t0)".toList :=
    @InParentheses.some _ [' '] [] [] _ (by decide) (by decide)
      (.one (@Clause.Written.length .gt [] ['\t'] ['0'] (by decide) (by decide)
        (by decide +kernel)))
      (by decide)
  have hbound : Clause.Written (.number .gte "-1.5".toList) ">= -1.5".toList :=
    @Clause.Written.number .gte [' '] _ (by decide)
      (@Source.Numeral.point true ['1'] ['5'] (by decide +kernel) (by decide +kernel))
  have hvalue : InParentheses [.number .gte "-1.5".toList, .nullable]
      "( >= -1.5 ,nullable)".toList :=
    @InParentheses.some _ [] [' '] [] _ (by decide) (by decide)
      (@Source.Listed.cons _ _ _ _ _ [' '] [] _ hbound (by decide) (by decide) (.one .nullable))
      (by decide)
  have hsize : Between '\x7b' '\x7d' [.length .lte "10".toList] "\x7blen <=10 \x7d".toList :=
    @Between.some _ _ _ [] [' '] _ (by decide)
      (.one (@Clause.Written.length .lte [' '] [] "10".toList (by decide) (by decide)
        (by decide +kernel)))
      (by decide)
  exact @TypeExpr.Written.mk "string" _ _ _ _ (by decide +kernel) hkey
    (@Source.Container.Written.keyed "int" _ _ [] [] _ ['\t'] _ (by decide) (by decide)
      (by decide +kernel) hvalue (by decide) hsize)

theorem orderly_tallies : ∀ clauses ∈ tallies.lists, Orderly clauses := by
  have hdistinct : ∀ clauses ∈ tallies.lists,
      clauses.Pairwise fun clause later => clause.rivals later = false := by decide +kernel
  have hfits : ∀ clauses ∈ tallies.lists, ∀ clause ∈ clauses, clause.Fits := by decide +kernel
  exact fun clauses hm => ⟨hdistinct clauses hm, hfits clauses hm⟩

/-- A member with blanks of both kinds between its pieces, where a struct is open. -/
theorem step_written_tallies :
    let c : Compilation := ({} : Compilation).define ⟨"", 1⟩ "S" (.struct { name := "S" })
    let k : Cursor := { block := .type "S" }
    let text := "\t optional  ".toList ++ (talliesText ++ "\tn ".toList)
    tallies.Written talliesText ∧ (∀ clauses ∈ tallies.lists, Orderly clauses) ∧ IsName "n"
      ∧ MemberLine talliesText "n" true text
      ∧ ∃ key value attr, Source.Attributed [.length .gt ['0']] key
        ∧ Source.Attributed [.number .gte "-1.5".toList, .nullable] value
        ∧ Source.Attributed [.length .lte "10".toList] attr
        ∧ (step ⟨"", 2⟩ text c k).1.types = c.types.insert "S" (.struct {
          name := "S"
          members := some [{
            name := "n"
            type := .dict (.builtin .int) value (some (.builtin .string)) key
            attr
            optional := true }] })
        ∧ (step ⟨"", 2⟩ text c k).1.log = [] := by
  intro c k text
  have hname : IsName "n" := by decide +kernel
  have hline : MemberLine talliesText "n" true text :=
    @MemberLine.optional _ _ "\t ".toList "  ".toList ['\t'] [' '] (by decide) (by decide)
      (by decide) (by decide)
  obtain ⟨type, attr, hmeans, -, hmember⟩ := step_written written_tallies orderly_tallies hname
  have hget : c.types.get? "S" = some (.struct { name := "S" }) := by
    rw [Compilation.types_define, NameMap.get?_insert, if_pos rfl]
  obtain ⟨htypes, hlog⟩ := hmember true text hline ⟨"", 2⟩ c k "S" _ rfl hget
  have hmeans := (hmeans type attr).2 ⟨rfl, rfl⟩
  cases hmeans with
  | @keyed _ _ _ _ _ key value attr ho hv h =>
    exact ⟨written_tallies, orderly_tallies, hname, hline, key, value, attr, ho, hv, h, htypes,
      hlog⟩

end Compile

end SchemaLang
