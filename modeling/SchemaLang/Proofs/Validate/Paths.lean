import SchemaLang.Proofs.Reaches
import SchemaLang.Proofs.Validate.Failures
import SchemaLang.Proofs.Validate.Safety

/-!
# Where failures lie

The path of a failure leads into the value that was validated, segment by segment: to an item by its
index and to an entry by the text of its key.  A member that is missing is missing from the object,
or the empty text, that the path before it leads to.

There is one exception.  The keys of a dict are validated as texts of their own, at the path of the
dict, and where the types of keys are structs, an empty key is read as one without any members.
What it lacks is then named as if the dict lacked it.  The linter accepts no such keys.

* `Validate.failsOnly_value`: every failure lies in the value.
* `Types.not_keyedByStruct`: the exception is not met in models without findings.
* `validateAs_points`: both, for the texts that a failure is reported with.
-/

namespace SchemaLang

/-! ## Nodes of values -/

/-- What the segments of a path lead to in a value. -/
inductive Value.NodeAt : Value → Path → Value → Prop
  | here {v : Value} : NodeAt v [] v
  | item {items : List Value} {i : Nat} {v node : Value} {way : Path} (hi : items[i]? = some v)
      (h : NodeAt v way node) : NodeAt (.array items) (toString i :: way) node
  | entry {entries : List (Key × Value)} {k : Key} {v node : Value} {way : Path}
      (he : (k, v) ∈ entries) (h : NodeAt v way node) :
      NodeAt (.object entries) (k.toText :: way) node

/-- An object, or the empty text that is read as one, without a member. -/
def Value.Lacks (v : Value) (member : String) : Prop :=
  ∃ entries, v.entries? = some entries ∧ .text member ∉ Entries.keys entries

/-- An object with an entry under the empty text. -/
def Value.HasEmptyKey (v : Value) : Prop :=
  ∃ entries, v = .object entries ∧ .text "" ∈ Entries.keys entries

/-- Among the types that a type is made of is a dict whose keys are read as structs. -/
def Types.KeyedByStruct (types : Types) (ty : TypeRef) : Prop :=
  ∃ value attr key keyAttr name s,
    types.Reaches ty (.dict value attr (some key) keyAttr)
      ∧ types.effective key = .user name ∧ types.get? name = some (.struct s)

/-- Where in `v`, which stands at `path`, a failure lies; `keyed` says whether dicts may have keys
that are read as structs. -/
inductive Failure.LiesIn (keyed : Prop) (v : Value) (path : Path) : Failure → Prop
  | invalid {way : Path} {node w : Value} {expected : String} {cause : Cause}
      (h : v.NodeAt way node) : LiesIn keyed v path (.invalid w (path ++ way) expected cause)
  | missing {way : Path} {node : Value} {member : String} (h : v.NodeAt way node)
      (hm : node.Lacks member) : LiesIn keyed v path (.missingMember (path ++ way ++ [member]))
  | missingInKey {way : Path} {node : Value} {member : String} (h : v.NodeAt way node)
      (hk : keyed) (he : node.HasEmptyKey) :
      LiesIn keyed v path (.missingMember (path ++ way ++ [member]))
  | unknown {way : Path} {node : Value} (h : v.NodeAt way node) :
      LiesIn keyed v path (.unknownMember (path ++ way))

namespace Failure.LiesIn

variable {keyed : Prop} {v : Value} {path : Path}

theorem atPath {w : Value} {expected : String} {cause : Cause} :
    LiesIn keyed v path (.invalid w path expected cause) := by
  have h : LiesIn keyed v path (.invalid w (path ++ []) expected cause) := .invalid .here
  rwa [List.append_nil] at h

theorem missingAtPath {member : String} (hm : v.Lacks member) :
    LiesIn keyed v path (.missingMember (path ++ [member])) := by
  have h : LiesIn keyed v path (.missingMember (path ++ [] ++ [member])) := .missing .here hm
  rwa [List.append_nil] at h

theorem missingInKeyAtPath {member : String} (hk : keyed) (he : v.HasEmptyKey) :
    LiesIn keyed v path (.missingMember (path ++ [member])) := by
  have h : LiesIn keyed v path (.missingMember (path ++ [] ++ [member])) :=
    .missingInKey .here hk he
  rwa [List.append_nil] at h

/-- What lies in a part of a value lies in the value. -/
theorem within {child : Value} {s : String} {f : Failure}
    (hn : ∀ {way node}, child.NodeAt way node → v.NodeAt (s :: way) node)
    (h : LiesIn keyed child (path ++ [s]) f) : LiesIn keyed v path f := by
  cases h with
  | invalid h =>
    rw [List.append_assoc, List.singleton_append]
    exact .invalid (hn h)
  | missing h hm =>
    rw [List.append_assoc path, List.singleton_append]
    exact .missing (hn h) hm
  | missingInKey h hk he =>
    rw [List.append_assoc path, List.singleton_append]
    exact .missingInKey (hn h) hk he
  | unknown h =>
    rw [List.append_assoc, List.singleton_append]
    exact .unknown (hn h)

theorem ofItem {items : List Value} {i : Nat} {child : Value} {f : Failure}
    (hi : items[i]? = some child) (h : LiesIn keyed child (path ++ [toString i]) f) :
    LiesIn keyed (.array items) path f := h.within (.item hi)

theorem ofEntry {entries : List (Key × Value)} {k : Key} {child : Value} {f : Failure}
    (he : (k, child) ∈ entries) (h : LiesIn keyed child (path ++ [k.toText]) f) :
    LiesIn keyed (.object entries) path f := h.within (.entry he)

end Failure.LiesIn

theorem Types.Leads.reaches {types : Types} {ty target : TypeRef}
    {aliases : List (String × Typedef)} (h : types.Leads ty aliases target) :
    types.Reaches ty target := by
  induction h with
  | here _ => exact .refl
  | step hd _ ih => exact (Uses.typedef hd).reaches ih

namespace Validate

/-! ## Values -/

variable {types : Types} {root : TypeRef} {path : Path}

theorem covers_liesIn {keyed : Prop} {v : Value} : Covers (Failure.LiesIn keyed v path) path :=
  fun _ _ _ => .atPath

theorem lacks_empty (member : String) : (Value.string "").Lacks member :=
  ⟨[], rfl, by simp [Entries.keys]⟩

/-- The key of an entry is refused at the path of the dict, and only the empty one for something
that it lacks. -/
theorem failsOnly_key {value : TypeRef} {attr keyAttr : Option Attributes} {key : Option TypeRef}
    {entries : List (Key × Value)} {e : Key × Value} (he : e ∈ entries)
    (hr : types.Reaches root (.dict value attr key keyAttr)) :
    FailsOnly (Failure.LiesIn (types.KeyedByStruct root) (.object entries) path)
      (leaf types (.ofKey e.1) (key.getD (.builtin .string)) path) := by
  refine failsOnly_leaf covers_liesIn ?_
  intro hv name s hn hd member
  have hmem : .text "" ∈ Entries.keys entries := by
    have hk : e.1 = .text "" := by
      cases hk : e.1 <;> simp_all [Value.ofKey]
    rw [← hk]
    exact List.mem_map_of_mem he
  cases key with
  | none =>
    rw [Option.getD_none, Types.effective, Types.resolve_of_not_isTypedef rfl] at hn
    simp at hn
  | some key =>
    exact .missingInKeyAtPath ⟨_, _, key, _, name, s, hr, hn, hd⟩ ⟨entries, rfl, hmem⟩

theorem failsOnly_members {s : Struct} {name : String} {entries : List (Key × Value)}
    {ty : TypeRef} (hd : types.get? name = some (.struct s))
    (hr : types.Reaches root (.user name))
    (ih : ∀ e ∈ entries, ∀ {path ty}, types.Reaches root ty →
      FailsOnly (Failure.LiesIn (types.KeyedByStruct root) e.2 path) (value types e.2 ty path)) :
    FailsOnly (Failure.LiesIn (types.KeyedByStruct root) (.object entries) path)
      (struct types s (.object entries) (memberChecks types entries) ty path) := by
  refine failsOnly_struct covers_liesIn ?_ ?_ ?_
  · intro m _ hg
    rw [get?_memberChecks, Option.map_eq_none_iff, Entries.get?_eq_none_iff] at hg
    exact .missingAtPath ⟨entries, rfl, hg⟩
  · intro m hm v check hg
    rw [get?_memberChecks, Option.map_eq_some_iff] at hg
    obtain ⟨v', hv, he⟩ := hg
    cases he
    have hmem := Entries.mem_of_get? hv
    have hm' : types.Reaches root m.type :=
      hr.tail (.member hd (Types.hasItem_of_mem_walk hm))
    exact ⟨fun _ _ _ => .ofEntry hmem .atPath, (ih _ hmem hm').mono fun f => .ofEntry hmem⟩
  · intro k hk
    rw [keys_memberChecks] at hk
    obtain ⟨⟨k', v⟩, he, rfl⟩ := List.mem_map.1 hk
    exact .unknown (.entry he .here)

theorem failsOnly_value {v : Value} {ty : TypeRef} (hr : types.Reaches root ty) :
    FailsOnly (Failure.LiesIn (types.KeyedByStruct root) v path) (value types v ty path) := by
  induction v generalizing ty path with
  | scalar v hs =>
    rw [value_scalar hs]
    refine failsOnly_leaf covers_liesIn ?_
    rintro rfl name s _ _ member
    exact .missingAtPath (lacks_empty member)
  | array items ih =>
    rw [value]
    refine failsOnly_resolved covers_liesIn fun aliases inner hl => ?_
    cases inner with
    | array element attr =>
      refine (failsOnly_itemsFrom fun j v hj => ?_).map _
      have hr' : types.Reaches root element := (hr.trans hl.reaches).tail .element
      rw [Nat.zero_add]
      exact ⟨fun _ _ _ => .ofItem hj .atPath,
        (ih v (List.mem_of_getElem? hj) hr').mono fun f => .ofItem hj⟩
    | _ => exact failsOnly_flat covers_liesIn (by simp)
  | object entries ih =>
    rw [value]
    refine failsOnly_resolved covers_liesIn fun aliases inner hl => ?_
    have hr' := hr.trans hl.reaches
    cases inner with
    | dict value attr key keyAttr =>
      refine (failsOnly_dictEntries covers_liesIn (fun e he => failsOnly_key he hr') ?_).map _
      intro e he
      exact ⟨fun _ _ _ => .ofEntry he .atPath,
        (ih e he (hr'.tail .value)).mono fun f => .ofEntry he⟩
    | user name =>
      cases hs : struct? types (.user name) with
      | none =>
        simp only [hs]
        exact failsOnly_flat covers_liesIn (by simp)
      | some s =>
        simp only [hs]
        exact failsOnly_members (struct?_eq_some_iff.1 hs) hr' ih
    | _ => exact failsOnly_flat covers_liesIn (by simp)

end Validate

/-! ## Models without findings -/

namespace Types

variable {types : Types}

/-- A name, or a type that stands in a typedef or a member. -/
def Stands (types : Types) (ty : TypeRef) : Prop :=
  (∃ name, ty = .user name) ∨ ∃ attr, types.HasSite ⟨ty, attr⟩

theorem Uses.hasSite {a b : TypeRef} (h : types.Uses a b) (ha : types.Stands a) :
    ∃ attr, types.HasSite ⟨b, attr⟩ := by
  cases h with
  | element =>
    obtain ⟨_, hs⟩ := ha.resolve_left (by simp)
    exact ⟨_, .part hs (.element .whole)⟩
  | value =>
    obtain ⟨_, hs⟩ := ha.resolve_left (by simp)
    exact ⟨_, .part hs (.value .whole)⟩
  | key =>
    obtain ⟨_, hs⟩ := ha.resolve_left (by simp)
    exact ⟨_, .part hs (.key .whole)⟩
  | typedef hd => exact ⟨_, .typedef hd⟩
  | member hd hm => exact ⟨_, hasSite_of_hasItem hm hd⟩

theorem Reaches.stands {name : String} {ty : TypeRef} (h : types.Reaches (.user name) ty) :
    types.Stands ty := by
  have hname : types.Stands (.user name) := .inl ⟨name, rfl⟩
  exact h.closed hname fun _ _ ha hu => .inr (hu.hasSite ha)

/-- The linter refuses dicts whose keys are read as structs. -/
theorem not_keyedByStruct (hl : types.lint = []) (name : String) :
    ¬types.KeyedByStruct (.user name) := by
  rintro ⟨value, attr, key, keyAttr, target, s, hr, he, hd⟩
  obtain ⟨attr', hs⟩ := hr.stands.resolve_left (by simp)
  obtain ⟨aliases, target', hleads, hkey⟩ :=
    ((wellFormed_of_lint hl).site hs _ .whole).isKey rfl
  rw [effective_of_leads hleads] at he
  subst he
  cases hkey with
  | enum hd' => simp [hd] at hd'

end Types

/-! ## How failures are reported -/

namespace Failure

theorem message_invalid (w : Value) (path : Path) (expected : String) (cause : Cause) :
    (invalid w path expected cause).message
      = "Invalid value " ++ Text.truncate maxValueText w.text ++ " (type " ++ quoted w.kind ++ ")"
        ++ (path.text?.elim "" fun p => " for member " ++ quoted p)
        ++ ", expected type " ++ quoted expected
        ++ (cause.bound?.elim "" fun b => " [" ++ b.describe ++ "]") := rfl

theorem message_missingMember (path : Path) :
    (missingMember path).message = "Required member " ++ quoted path.join ++ " missing" := rfl

/-- A message that says of a member which one it is. -/
def Quotes (f : Failure) (member : String) : Prop :=
  ∃ before after, f.message = before ++ " for member " ++ quoted member ++ after

theorem exists_path_of_member? {f : Failure} {p : String} (h : f.member? = some p) :
    f.Quotes p ∧ ∃ w path expected cause, f = .invalid w path expected cause ∧ path ≠ []
      ∧ p = path.join := by
  cases f with
  | invalid w path expected cause =>
    have ht : path.text? = some p := h
    refine ⟨?_, w, path, expected, cause, rfl, ?_⟩
    · refine ⟨"Invalid value " ++ Text.truncate maxValueText w.text
          ++ " (type " ++ quoted w.kind ++ ")",
        ", expected type " ++ quoted expected
          ++ (cause.bound?.elim "" fun b => " [" ++ b.describe ++ "]"), ?_⟩
      simp only [message_invalid, ht, Option.elim_some, String.append_assoc]
    · rw [Path.text?] at ht
      split at ht
      · simp at ht
      · next hp => exact ⟨by simpa using hp, (Option.some.inj ht).symm⟩
  | _ => simp [member?] at h

theorem head?_append {s t : String} {c : Char} (h : s.toList.head? = some c) :
    (s ++ t).toList.head? = some c := by
  rw [String.toList_append, List.head?_append, h]
  rfl

/-- The first letter of a message tells which kind of failure it is. -/
theorem exists_path_of_message {f : Failure} {q : String}
    (h : f.message = "Required member " ++ quoted q ++ " missing") :
    ∃ path, f = .missingMember path ∧ q = path.join := by
  have hr : f.message.toList.head? = some 'R' := by
    rw [h]
    exact head?_append (head?_append rfl)
  cases f with
  | missingMember path =>
    refine ⟨path, rfl, ?_⟩
    simpa [message_missingMember, quoted, eq_comm] using h
  | unknownType name =>
    have hu : (unknownType name).message.toList.head? = some 'U' := head?_append rfl
    simp [hu] at hr
  | invalid w path expected cause =>
    have hi : (invalid w path expected cause).message.toList.head? = some 'I' := by
      rw [message_invalid]
      repeat apply head?_append
      rfl
    simp [hi] at hr
  | unknownMember path =>
    have hu : (unknownMember path).message.toList.head? = some 'U' := head?_append rfl
    simp [hu] at hr

end Failure

theorem liesIn_of_validateAs {types : Types} {name : String} {v : Value} {f : Failure}
    (h : types.validateAs name v = .error f) :
    f = .unknownType name ∨ f.LiesIn (types.KeyedByStruct (.user name)) v [] := by
  rw [Types.validateAs] at h
  split at h
  · exact .inr (Validate.failsOnly_value .refl f h)
  · exact .inl (Except.error.inj h).symm

/-- A failure lies at a node of the value.  One with a member quotes the way to its node, and a
member that is missing is missing from the node that the way of the failure leads to before it, or
from an empty key there that is read as a struct.  No key is so read in a model without
findings. -/
theorem validateAs_points {types : Types} {name : String} {v : Value} {f : Failure}
    (h : types.validateAs name v = .error f) :
    (f = .unknownType name ∨ f.LiesIn (types.KeyedByStruct (.user name)) v [])
      ∧ (∀ p, f.member? = some p →
        f.Quotes p ∧ ∃ w way expected cause node, f = .invalid w way expected cause ∧ way ≠ []
          ∧ p = Path.join way ∧ v.NodeAt way node)
      ∧ (∀ q, f.message = "Required member " ++ Failure.quoted q ++ " missing" →
        ∃ way member node, f = .missingMember (way ++ [member]) ∧ q = Path.join (way ++ [member])
          ∧ v.NodeAt way node
          ∧ (node.Lacks member ∨ (node.HasEmptyKey ∧ types.KeyedByStruct (.user name))))
      ∧ (types.lint = [] → ¬types.KeyedByStruct (.user name)) := by
  refine ⟨liesIn_of_validateAs h, ?_, ?_, fun hl => Types.not_keyedByStruct hl name⟩
  · intro p hp
    obtain ⟨hq, w, path, expected, cause, rfl, hne, rfl⟩ := Failure.exists_path_of_member? hp
    rcases liesIn_of_validateAs h with hu | hlies
    · simp at hu
    · cases hlies with
      | invalid hn => exact ⟨hq, w, _, expected, cause, _, rfl, hne, rfl, hn⟩
  · intro q hq
    obtain ⟨path, rfl, rfl⟩ := Failure.exists_path_of_message hq
    rcases liesIn_of_validateAs h with hu | hlies
    · simp at hu
    · cases hlies with
      | missing hn hm => exact ⟨_, _, _, rfl, rfl, hn, .inl hm⟩
      | missingInKey hn hk he => exact ⟨_, _, _, rfl, rfl, hn, .inr ⟨he, hk⟩⟩

/-- A count that is no number, among counts that are. -/
def Value.miscounted : Value :=
  .object
    [(.text "day", .string "2024-2-29"),
      (.text "counts", .object [(.text "red", .int 5), (.text "green", .string "five")])]

theorem validateAs_points_miscounted :
    Types.sample.validateAs "Tally" Value.miscounted
        = .error (.invalid (.string "five") ["counts", "green"] "int" .kind)
      ∧ (Failure.invalid (.string "five") ["counts", "green"] "int" .kind).LiesIn
        (Types.sample.KeyedByStruct (.user "Tally")) Value.miscounted [] := by
  have h : Types.sample.validateAs "Tally" Value.miscounted
      = .error (.invalid (.string "five") ["counts", "green"] "int" .kind) := by cbv
  exact ⟨h, (validateAs_points h).1.resolve_left (by simp)⟩

/-! ## Keys that are read as structs -/

/-- Numbers under keys that are read as points. -/
def Types.pointKeys : Types :=
  .ofList
    [("Heights", .typedef
        { name := "Heights"
          type := .dict (.builtin .int) none (some (.user "Point")) none }),
      ("Point", .struct
        { name := "Point"
          members := some [{ name := "x", type := .builtin .int }] })]

theorem join_ne_of_two {s t : String} {rest : Path} {q : String} (hq : '.' ∉ q.toList) :
    Path.join (s :: t :: rest) ≠ q := by
  rintro rfl
  simp [Path.join] at hq

/-- The member that an empty key lacks is reported as if the dict lacked it. -/
theorem exists_missing_from_key :
    ¬∀ (types : Types) (name : String) (v : Value) (f : Failure) (q : String),
      types.validateAs name v = .error f →
      f.message = "Required member " ++ Failure.quoted q ++ " missing" →
      ∃ way member node, q = Path.join (way ++ [member]) ∧ v.NodeAt way node
        ∧ node.Lacks member := by
  intro h
  have hf : Types.pointKeys.validateAs "Heights" (.object [(.text "", .int 1), (.text "x", .int 2)])
      = .error (.missingMember ["x"]) := by cbv
  obtain ⟨way, member, node, hq, hn, entries, he, hm⟩ := h _ _ _ _ "x" hf rfl
  cases way with
  | nil =>
    cases hn
    cases he
    have hx : member = "x" := by simpa [Path.join] using hq.symm
    simp [hx, Entries.keys] at hm
  | cons s way =>
    obtain ⟨t, rest, hr⟩ := List.exists_cons_of_ne_nil (List.append_ne_nil_of_right_ne_nil way
      (List.cons_ne_nil member []))
    rw [List.cons_append, hr] at hq
    exact join_ne_of_two (by decide) hq.symm

end SchemaLang
