import Mathlib
import SchemaLang.Proofs.Lint
import SchemaLang.Proofs.Outcome
import SchemaLang.Proofs.Validate.Members

/-!
# Validation finds the readings

Validation succeeds with a value exactly when that is what the given value is read as, whatever the
path: the readings of `Reads` are what is left of `Validate.value` once failures are taken away.

* `Validate.value_eq_ok_iff`: validation against a type.
* `Types.validateAs_eq_ok_iff`: validation against a defined type.
-/

namespace SchemaLang

namespace Validate

theorem checkAttributes_eq_ok_iff {ty : TypeRef} {attr : Option Attributes} {w : Value}
    {path : Path} {u : Unit} :
    checkAttributes ty attr w path = .ok u
      ↔ (w.isNull = true ∧ allowsNull attr = true)
        ∨ (w.isNull = false ∧ brokenBound? attr w = none) := by
  rw [checkAttributes]
  cases hn : w.isNull with
  | true => cases ha : allowsNull attr <;> simp
  | false => cases hb : brokenBound? attr w <;> simp

variable {types : Types}

/-- Null is read without a look at the type, everything else as the type, and then the attributes
are checked; `isNull` decides which. -/
theorem site_eq_ok_iff {ty expected : TypeRef} {attr : Option Attributes} {v w : Value}
    {path : Path} {isNull : Bool} {r : Except Failure Value}
    (hr : ∀ w, r = .ok w ↔ Reads types (.type ty) v w)
    (hv : isNull = true → v.isNull = true ∨ (allowsNull attr = true ∧ v.isNullText = true))
    (ha : allowsNull attr = true → v.isNull = true ∨ v.isNullText = true → isNull = true) :
    (do
      let w ← if isNull then .ok .null else r
      checkAttributes expected attr w path
      pure w : Except Failure Value) = .ok w ↔ Reads types (.site ty attr) v w := by
  cases hi : isNull with
  | true =>
    simp only [if_true, bind_eq_ok_iff, checkAttributes_eq_ok_iff]
    constructor
    · rintro ⟨x, hx, _, hc, hw⟩
      cases hw
      cases hx
      rcases hc with ⟨_, han⟩ | ⟨hn, _⟩
      · exact .null han ((hv hi).imp_right And.right)
      · simp [Value.isNull] at hn
    · intro h
      cases h with
      | null han _ => exact ⟨.null, rfl, (), .inl ⟨rfl, han⟩, rfl⟩
      | value hvn ht _ _ _ =>
        rcases hv hi with hnull | hnt
        · simp [hnull] at hvn
        · exact absurd hnt ht
  | false =>
    simp only [Bool.false_eq_true, if_false, bind_eq_ok_iff, checkAttributes_eq_ok_iff]
    constructor
    · rintro ⟨x, hx, _, hc, hw⟩
      cases hw
      rw [hr] at hx
      rcases hc with ⟨hn, han⟩ | ⟨hn, hb⟩
      · rw [Value.isNull_iff.1 hn] at hx
        simp [ha han hx.isNull_or_isNullText] at hi
      · refine .value ?_ (fun ht => ?_) hx hn hb
        · cases h : v.isNull with
          | false => rfl
          | true => simp [hx.null_of_isNull h, Value.isNull] at hn
        · simp [ha ht.1 (.inr ht.2)] at hi
    · intro h
      cases h with
      | null han hnt => simp [ha han hnt] at hi
      | value _ _ h hn hb => exact ⟨w, (hr w).2 h, (), .inr ⟨hn, hb⟩, rfl⟩

theorem element_eq_ok_iff {v w : Value} {check : Check} {ty : TypeRef} {attr : Option Attributes}
    {path : Path} (hr : ∀ w, check ty path = .ok w ↔ Reads types (.type ty) v w) :
    element v check ty attr path = .ok w ↔ Reads types (.site ty attr) v w := by
  refine site_eq_ok_iff hr ?_ ?_
  · intro h
    rcases Bool.or_eq_true _ _ ▸ h with h | h
    · exact .inl h
    · exact .inr (Bool.and_eq_true _ _ ▸ h)
  · rintro ha (hn | ht)
    · rw [hn, Bool.true_or]
    · rw [ha, ht, Bool.true_and, Bool.or_true]

/-! ## Along aliases -/

theorem alongAliases_eq_ok_iff {ty inner : TypeRef} {aliases : List (String × Typedef)} {v : Value}
    {path : Path} {target : Unit → Except Failure Value} (hl : types.Leads ty aliases inner)
    (ht : ∀ w, target () = .ok w ↔ Reads types (.type inner) v w) (w : Value) :
    alongAliases v path target aliases = .ok w ↔ Reads types (.type ty) v w := by
  induction hl generalizing w with
  | here _ => exact ht w
  | @step name t as inner hd hl ih =>
    have hs : alongAliases v path target ((name, t) :: as) = .ok w
        ↔ Reads types (.site t.type t.attr) v w := by
      refine site_eq_ok_iff (ih ht) ?_ ?_
      · intro h
        rw [Bool.and_eq_true, Bool.or_eq_true] at h
        exact h.2.imp_right fun ht => ⟨h.1, ht⟩
      · rintro ha (hn | ht)
        · rw [ha, hn, Bool.true_or, Bool.true_and]
        · rw [ha, ht, Bool.or_true, Bool.true_and]
    have hc := (Types.leads_iff.1 (.step hd hl)).1
    rw [hs, reads_typedef_iff hd, hc]
    simp only [true_and]

theorem resolved_eq_ok_iff {ty : TypeRef} {v w : Value} {path : Path}
    {target : TypeRef → Except Failure Value}
    (ht : ∀ inner, types.isTypedef inner = false → ∀ w,
      target inner = .ok w ↔ Reads types (.type inner) v w) :
    resolved types v ty path target = .ok w ↔ Reads types (.type ty) v w := by
  rw [resolved]
  cases hc : types.isCircular ty with
  | true =>
    rw [if_pos rfl]
    constructor
    · intro h
      simp [refuse] at h
    · intro h
      rw [h.isCircular] at hc
      simp at hc
  | false =>
    have hl : types.Leads ty (types.resolve ty).1 (types.resolve ty).2 :=
      Types.leads_iff.2 ⟨hc, rfl⟩
    exact alongAliases_eq_ok_iff hl (ht _ hl.target) w

/-! ## Containers -/

theorem itemsFrom_eq_ok_iff {items : List Value} {element : TypeRef} {attr : Option Attributes}
    {path : Path} {i : Nat} {ws : List Value}
    (hr : ∀ v ∈ items, ∀ ty path w, value types v ty path = .ok w ↔ Reads types (.type ty) v w) :
    itemsFrom types items element attr path i = .ok ws
      ↔ List.Forall₂ (Reads types (.site element attr)) items ws := by
  induction items generalizing i ws with
  | nil =>
    rw [itemsFrom, List.forall₂_nil_left_iff]
    exact ⟨fun h => (Except.ok.inj h).symm, fun h => by rw [h]⟩
  | cons v items ih =>
    have hv : ∀ w, Validate.element v (value types v) element attr (path ++ [toString i]) = .ok w
        ↔ Reads types (.site element attr) v w :=
      fun w => element_eq_ok_iff (hr v List.mem_cons_self element (path ++ [toString i]))
    simp only [itemsFrom, bind_eq_ok_iff, hv, ih fun x hx => hr x (List.mem_cons_of_mem _ hx),
      List.forall₂_cons_left_iff]
    constructor
    · rintro ⟨w, hw, rest, hrest, h⟩
      exact ⟨w, rest, hw, hrest, (Except.ok.inj h).symm⟩
    · rintro ⟨w, rest, hw, hrest, rfl⟩
      exact ⟨w, hw, rest, hrest, rfl⟩

theorem value_scalar {v : Value} (hs : v.isContainer = false) : value types v = leaf types v := by
  cases v with
  | array items => simp [Value.isContainer] at hs
  | object entries => simp [Value.isContainer] at hs
  | _ => rfl

theorem dictEntries_eq_ok_iff {entries : List (Key × Value)} {ty keyType : TypeRef}
    {attr keyAttr : Option Attributes} {path : Path} {out : List (Key × Value)}
    (hk : ∀ k : Key, ∀ ty path w,
      leaf types (.ofKey k) ty path = .ok w ↔ Reads types (.type ty) (.ofKey k) w)
    (hr : ∀ e ∈ entries, ∀ ty path w,
      value types e.2 ty path = .ok w ↔ Reads types (.type ty) e.2 w) :
    dictEntries types entries ty attr keyType keyAttr path = .ok out
      ↔ ∃ pairs, List.Forall₂ (fun e p => Reads types (.site keyType keyAttr) (.ofKey e.1) p.1
          ∧ Reads types (.site ty attr) e.2 p.2) entries pairs ∧ out = keyed pairs := by
  induction entries generalizing out with
  | nil =>
    simp only [dictEntries, List.forall₂_nil_left_iff, exists_eq_left]
    exact ⟨fun h => (Except.ok.inj h).symm, fun h => by rw [h]; rfl⟩
  | cons e entries ih =>
    obtain ⟨k, v⟩ := e
    have hkey : ∀ w, element (.ofKey k) (leaf types (.ofKey k)) keyType keyAttr path = .ok w
        ↔ Reads types (.site keyType keyAttr) (.ofKey k) w :=
      fun w => element_eq_ok_iff (hk k keyType path)
    have hv : ∀ w, element v (value types v) ty attr (path ++ [k.toText]) = .ok w
        ↔ Reads types (.site ty attr) v w :=
      fun w => element_eq_ok_iff (hr (k, v) List.mem_cons_self ty (path ++ [k.toText]))
    simp only [dictEntries, bind_eq_ok_iff, hkey, hv,
      ih fun x hx => hr x (List.mem_cons_of_mem _ hx), List.forall₂_cons_left_iff]
    constructor
    · rintro ⟨kw, hkw, w, hw, _, ⟨pairs, hp, rfl⟩, h⟩
      exact ⟨(kw, w) :: pairs, ⟨(kw, w), pairs, ⟨hkw, hw⟩, hp, rfl⟩, (Except.ok.inj h).symm⟩
    · rintro ⟨_, ⟨p, pairs, ⟨hkw, hw⟩, hp, rfl⟩, rfl⟩
      exact ⟨p.1, hkw, p.2, hw, keyed pairs, ⟨pairs, hp, rfl⟩, rfl⟩

theorem get?_memberChecks (key : Key) (entries : List (Key × Value)) :
    Entries.get? key (memberChecks types entries)
      = (Entries.get? key entries).map fun v => (v, value types v) := by
  induction entries with
  | nil => rfl
  | cons e entries ih =>
    obtain ⟨k, v⟩ := e
    rw [memberChecks, Entries.get?, Entries.get?, ih]
    split <;> rfl

theorem keys_memberChecks (entries : List (Key × Value)) :
    Entries.keys (memberChecks types entries) = Entries.keys entries := by
  rw [memberChecks_eq_map, Entries.keys, Entries.keys, List.map_map]
  rfl

theorem presentMembers_eq_ok_iff {s : Struct} {entries : List (Key × Value)}
    {members : List Member} {path : Path} {out : List (Key × Value)}
    (hr : ∀ e ∈ entries, ∀ ty path w,
      value types e.2 ty path = .ok w ↔ Reads types (.type ty) e.2 w) :
    presentMembers s path (memberChecks types entries) members = .ok out
      ↔ (∀ m ∈ members, .text m.name ∉ Entries.keys entries →
            m.optional = true ∨ s.union = true)
        ∧ ∃ ws, List.Forall₂ (fun p w => Reads types (.site p.1.type p.1.attr) p.2 w)
            (present members entries) ws
          ∧ out = named ((present members entries).map Prod.fst) ws := by
  induction members generalizing out with
  | nil =>
    simp only [presentMembers, present, List.filterMap_nil, List.forall₂_nil_left_iff,
      exists_eq_left, List.not_mem_nil, false_implies, implies_true, true_and]
    exact ⟨fun h => (Except.ok.inj h).symm, fun h => by rw [h]; rfl⟩
  | cons m members ih =>
    rw [presentMembers, get?_memberChecks]
    cases hg : Entries.get? (.text m.name) entries with
    | none =>
      have hp : present (m :: members) entries = present members entries := by
        simp [present, hg]
      have hm : (.text m.name) ∉ Entries.keys entries := Entries.get?_eq_none_iff.1 hg
      simp only [Option.map_none, hp, List.forall_mem_cons, hm, not_false_eq_true, true_implies]
      cases ho : m.optional <;> cases hu : s.union
      · simp
      all_goals simp [ih, hu]
    | some v =>
      have hp : present (m :: members) entries = (m, v) :: present members entries := by
        simp [present, hg]
      have hm : (.text m.name) ∈ Entries.keys entries := by
        by_contra hm
        rw [Entries.get?_eq_none_iff.2 hm] at hg
        simp at hg
      have hv : ∀ w, element v (value types v) m.type m.attr (path ++ [m.name]) = .ok w
          ↔ Reads types (.site m.type m.attr) v w :=
        fun w => element_eq_ok_iff
          (hr (.text m.name, v) (Entries.mem_of_get? hg) m.type (path ++ [m.name]))
      simp only [Option.map_some, bind_eq_ok_iff, hv, ih, hp, List.forall_mem_cons, hm,
        not_true_eq_false, false_implies, true_and, List.forall₂_cons_left_iff]
      constructor
      · rintro ⟨w, hw, _, ⟨ho, ws, hws, rfl⟩, h⟩
        exact ⟨ho, w :: ws, ⟨w, ws, hw, hws, rfl⟩, (Except.ok.inj h).symm⟩
      · rintro ⟨ho, _, ⟨w, ws, hw, hws, rfl⟩, rfl⟩
        exact ⟨w, hw, _, ⟨ho, ws, hws, rfl⟩, rfl⟩

theorem unknownKey?_eq_none_iff {members : List Member} {keys : List Key} :
    unknownKey? members keys = none ↔ ∀ k ∈ keys, ∃ m ∈ members, k = .text m.name := by
  rw [unknownKey?, List.find?_eq_none]
  simp

/-- As many members as entries leave no entry over. -/
theorem known_of_length_eq {members : List Member} {entries : List (Key × Value)} {ws : List Value}
    (hl : (present members entries).length = ws.length)
    (h : (Entries.ofList (named ((present members entries).map Prod.fst) ws)).length
      = entries.length) :
    ∀ k ∈ Entries.keys entries, ∃ m ∈ members, k = .text m.name := by
  have hlm : ((present members entries).map Prod.fst).length = ws.length := by
    rw [List.length_map, hl]
  have hmem : ∀ k ∈ Entries.keys
      (Entries.ofList (named ((present members entries).map Prod.fst) ws)),
      k ∈ Entries.keys entries ∧ ∃ m ∈ members, k = .text m.name := by
    intro k hk
    rw [Entries.mem_keys_ofList, keys_named hlm, List.map_map, List.mem_map] at hk
    obtain ⟨p, hp, rfl⟩ := hk
    obtain ⟨hm, hg⟩ := mem_present.1 hp
    exact ⟨List.mem_map_of_mem (f := Prod.fst) (Entries.mem_of_get? hg), p.1, hm, rfl⟩
  have hsub := List.subperm_of_subset (Entries.nodup_keys_ofList _) fun k hk => (hmem k hk).1
  have hperm := hsub.perm_of_length_le (by simp [Entries.keys, h])
  exact fun k hk => (hmem k (hperm.symm.subset hk)).2

theorem struct_eq_ok_iff {s : Struct} {v w : Value} {entries : List (Key × Value)} {ty : TypeRef}
    {path : Path}
    (hr : ∀ e ∈ entries, ∀ ty path w,
      value types e.2 ty path = .ok w ↔ Reads types (.type ty) e.2 w) :
    struct types s v (memberChecks types entries) ty path = .ok w
      ↔ ReadsMembers types s entries w := by
  have hlen : (memberChecks types entries).length = entries.length := by
    rw [memberChecks_eq_map, List.length_map]
  rw [struct, hlen]
  by_cases hu : s.union = true ∧ entries.length ≠ 1
  · have hc : (s.union && entries.length != 1) = true := by simpa using hu
    rw [if_pos hc]
    constructor
    · intro h
      simp [mismatch, refuse] at h
    · rintro ⟨h, -⟩
      exact absurd (h hu.1) hu.2
  · have hc : (s.union && entries.length != 1) = false := by
      simpa [Classical.not_not] using hu
    have hu' : s.union = true → entries.length = 1 := fun h =>
      Classical.byContradiction fun hn => hu ⟨h, hn⟩
    simp only [hc, Bool.false_eq_true, if_false, bind_eq_ok_iff, presentMembers_eq_ok_iff hr,
      keys_memberChecks]
    constructor
    · rintro ⟨_, ⟨ho, ws, hws, rfl⟩, h⟩
      split at h
      · next hl => exact ⟨hu', known_of_length_eq hws.length_eq hl, ho, ws, hws,
          (Except.ok.inj h).symm⟩
      · split at h
        · next hk => exact ⟨hu', unknownKey?_eq_none_iff.1 hk, ho, ws, hws,
            (Except.ok.inj h).symm⟩
        · simp at h
    · rintro ⟨-, hk, ho, ws, hws, rfl⟩
      refine ⟨_, ⟨ho, ws, hws, rfl⟩, ?_⟩
      rw [unknownKey?_eq_none_iff.2 hk]
      split <;> rfl

/-! ## Values -/

theorem flat_enum_eq_ok_iff {name : String} {e : Enum} {v w : Value} {path : Path}
    (hd : types.get? name = some (.enum e)) :
    flat types v (.user name) path = .ok w ↔ Reads types (.type (.user name)) v w := by
  simp only [flat, hd]
  rw [reads_enum_iff hd]
  constructor
  · intro h
    split at h
    · next s =>
      split at h
      · next hs =>
        cases h
        exact ⟨s, rfl, rfl, by simpa using hs⟩
      · simp [mismatch, refuse] at h
    · simp [mismatch, refuse] at h
  · rintro ⟨s, rfl, rfl, hs⟩
    have hs' : ((types.values e).any fun value => value.name == s) = true := by simpa using hs
    simp only [hs', if_true]

/-- Against a struct only the empty text is left, without any entries. -/
theorem flat_struct_eq_ok_iff {name : String} {s : Struct} {v w : Value} {path : Path}
    (hd : types.get? name = some (.struct s)) (hv : ∀ entries, v ≠ .object entries) :
    flat types v (.user name) path = .ok w ↔ Reads types (.type (.user name)) v w := by
  simp only [flat, hd]
  rw [reads_struct_iff hd]
  have hr : ∀ e ∈ ([] : List (Key × Value)), ∀ ty path w,
      value types e.2 ty path = .ok w ↔ Reads types (.type ty) e.2 w := by simp
  have hst : struct types s (.string "") [] (.user name) path = .ok w ↔ ReadsMembers types s [] w :=
    struct_eq_ok_iff hr
  constructor
  · intro h
    split at h
    · exact ⟨[], rfl, hst.1 h⟩
    · simp [mismatch, refuse] at h
  · rintro ⟨entries, he, h⟩
    obtain ⟨rfl, rfl⟩ := (Value.eq_of_entries? he).resolve_left (hv entries)
    exact hst.2 h

theorem flat_array_eq_ok_iff {element : TypeRef} {attr : Option Attributes} {v w : Value}
    {path : Path} (hv : ∀ items, v ≠ .array items) :
    flat types v (.array element attr) path = .ok w
      ↔ Reads types (.type (.array element attr)) v w := by
  rw [reads_array_iff]
  constructor
  · intro h
    simp only [flat] at h
    split at h
    · exact ⟨[], rfl, [], .nil, (Except.ok.inj h).symm⟩
    · simp [mismatch, refuse] at h
  · rintro ⟨items, hi, ws, h, rfl⟩
    obtain ⟨rfl, rfl⟩ := (Value.eq_of_items? hi).resolve_left (hv items)
    cases h
    rfl

theorem flat_dict_eq_ok_iff {ty : TypeRef} {attr keyAttr : Option Attributes}
    {key : Option TypeRef} {v w : Value} {path : Path} (hv : ∀ entries, v ≠ .object entries) :
    flat types v (.dict ty attr key keyAttr) path = .ok w
      ↔ Reads types (.type (.dict ty attr key keyAttr)) v w := by
  rw [reads_dict_iff]
  constructor
  · intro h
    simp only [flat] at h
    split at h
    · exact ⟨[], rfl, [], .nil, (Except.ok.inj h).symm⟩
    · simp [mismatch, refuse] at h
  · rintro ⟨entries, he, pairs, h, rfl⟩
    obtain ⟨rfl, rfl⟩ := (Value.eq_of_entries? he).resolve_left (hv entries)
    cases h
    rfl

/-- A value of a flat kind, and a container where its own kind of type is not asked for. -/
theorem flat_eq_ok_iff {v w : Value} {inner : TypeRef} {path : Path}
    (hi : types.isTypedef inner = false)
    (ha : ∀ items, v = .array items → ∀ element attr, inner ≠ .array element attr)
    (ho : ∀ entries, v = .object entries →
      (∀ ty attr key keyAttr, inner ≠ .dict ty attr key keyAttr) ∧ struct? types inner = none) :
    flat types v inner path = .ok w ↔ Reads types (.type inner) v w := by
  cases inner with
  | builtin b =>
    rw [reads_builtin_iff, flat]
    cases b.convert? v <;> simp [mismatch, refuse]
  | array element attr =>
    exact flat_array_eq_ok_iff fun items hv => ha items hv element attr rfl
  | dict ty attr key keyAttr =>
    exact flat_dict_eq_ok_iff fun entries hv => (ho entries hv).1 ty attr key keyAttr rfl
  | user name =>
    cases hd : types.get? name with
    | none =>
      have hn : ¬Reads types (.type (.user name)) v w := not_reads_user (by simp [hd])
      simp [flat, hd, refuse, hn]
    | some d =>
      cases d with
      | typedef t => simp [Types.isTypedef, hd] at hi
      | action a =>
        have hn : ¬Reads types (.type (.user name)) v w := not_reads_user (by simp [hd])
        simp [flat, hd, refuse, hn]
      | enum e => exact flat_enum_eq_ok_iff hd
      | struct s =>
        apply flat_struct_eq_ok_iff hd
        intro entries hv
        have hn := (ho entries hv).2
        simp [struct?, hd, Definition.struct?] at hn

theorem leaf_eq_ok_iff {v w : Value} {ty : TypeRef} {path : Path} (hs : v.isContainer = false) :
    leaf types v ty path = .ok w ↔ Reads types (.type ty) v w := by
  refine resolved_eq_ok_iff fun inner hi w => flat_eq_ok_iff hi ?_ ?_
  · rintro items rfl
    simp [Value.isContainer] at hs
  · rintro entries rfl
    simp [Value.isContainer] at hs

theorem struct?_eq_some_iff {name : String} {s : Struct} :
    struct? types (.user name) = some s ↔ types.get? name = some (.struct s) := by
  rw [struct?, Option.bind_eq_some_iff]
  constructor
  · rintro ⟨d, hd, hs⟩
    cases d with
    | struct s' =>
      cases hs
      exact hd
    | _ => simp [Definition.struct?] at hs
  · intro hd
    exact ⟨_, hd, rfl⟩

theorem value_eq_ok_iff {v w : Value} {ty : TypeRef} {path : Path} :
    value types v ty path = .ok w ↔ Reads types (.type ty) v w := by
  induction v generalizing w ty path with
  | scalar v hs =>
    rw [value_scalar hs]
    exact leaf_eq_ok_iff hs
  | array items ih =>
    rw [value]
    apply resolved_eq_ok_iff
    intro inner hi w
    have hf := fun hne => @flat_eq_ok_iff types (.array items) w inner path hi hne (by simp)
    cases inner with
    | array element attr =>
      simp only [map_eq_ok_iff, itemsFrom_eq_ok_iff fun v hv _ _ _ => ih v hv, reads_array_iff,
        Value.items?, Option.some.injEq, exists_eq_left', eq_comm (a := w)]
    | builtin b => exact hf (by simp)
    | dict ty attr key keyAttr => exact hf (by simp)
    | user name => exact hf (by simp)
  | object entries ih =>
    rw [value]
    apply resolved_eq_ok_iff
    intro inner hi w
    have hr : ∀ e ∈ entries, ∀ ty path w,
        value types e.2 ty path = .ok w ↔ Reads types (.type ty) e.2 w := fun e he _ _ _ => ih e he
    have hf := fun hne => @flat_eq_ok_iff types (.object entries) w inner path hi (by simp) hne
    cases inner with
    | dict ty attr key keyAttr =>
      have hk : ∀ k : Key, ∀ ty path w,
          leaf types (.ofKey k) ty path = .ok w ↔ Reads types (.type ty) (.ofKey k) w :=
        fun k _ _ _ => leaf_eq_ok_iff (Value.isContainer_ofKey k)
      simp only [map_eq_ok_iff, dictEntries_eq_ok_iff hk hr, reads_dict_iff, Value.entries?,
        Option.some.injEq, exists_eq_left']
      constructor
      · rintro ⟨_, ⟨pairs, h, rfl⟩, rfl⟩
        exact ⟨pairs, h, rfl⟩
      · rintro ⟨pairs, h, rfl⟩
        exact ⟨_, ⟨pairs, h, rfl⟩, rfl⟩
    | builtin b => exact hf (by simp [struct?])
    | array element attr => exact hf (by simp [struct?])
    | user name =>
      cases hs : struct? types (.user name) with
      | none =>
        simp only [hs]
        exact hf (by simp [hs])
      | some s =>
        simp only [hs, struct_eq_ok_iff hr, reads_struct_iff (struct?_eq_some_iff.1 hs),
          Value.entries?, Option.some.injEq, exists_eq_left']

end Validate

theorem Types.validateAs_eq_ok_iff {types : Types} {name : String} {v w : Value} :
    types.validateAs name v = .ok w
      ↔ types.contains name = true ∧ Validate.Reads types (.type (.user name)) v w := by
  rw [validateAs]
  cases hc : types.contains name with
  | true => simp [validate, Validate.value_eq_ok_iff]
  | false => simp

/-! ## Sample values -/

/-- Texts that stand for a number, for null, for nothing and for a day. -/
def Value.sample : Value :=
  .object
    [(.text "counts", .object [(.text "red", .string " 5"), (.text "null", .string "null")]),
      (.text "notes", .string ""), (.text "day", .string "2024-2-29")]

def Value.sampleRead : Value :=
  .object
    [(.text "day", .date ⟨2024, 2, 29, by decide⟩),
      (.text "counts", .object [(.text "red", .int 5), (.null, .null)]), (.text "notes", .array [])]

theorem validateAs_sample :
    Types.sample.validateAs "Tally" Value.sample = .ok Value.sampleRead := by cbv

end SchemaLang
