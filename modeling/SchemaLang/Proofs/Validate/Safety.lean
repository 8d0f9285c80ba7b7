import SchemaLang.Proofs.Lint.Acceptance
import SchemaLang.Proofs.Validate.Keys
import SchemaLang.Proofs.Validate.Trace

/-!
# Runs with well-formed models

From a type of a well-formed model a run comes only to sites that are written in the model, and to
the keys of dicts that have no type of their own, which are texts.  What is wrong with no site of a
model is wrong with no event of a run.

* `Run.sound_value`: the events of a run are sound.
* `validateAs_safe`: a run is stopped by no name, no alias and no base, and changes no key.
* `Types.met_of_validateAs`, `Types.cause_ne_of_lint`: the run meets what a value is refused for.
* `check_measured`: the bounds that are checked are about something that the value has, but for
  those on keys without a type.
-/

namespace SchemaLang

/-! ## The sites of a model -/

theorem Site.Part.trans {s p q : Site} (hsp : s.Part p) (hpq : p.Part q) : s.Part q := by
  induction hsp with
  | whole => exact hpq
  | element _ ih => exact .element (ih hpq)
  | value _ ih => exact .value (ih hpq)
  | key _ ih => exact .key (ih hpq)

namespace Types

/-- The sites that stand in the typedefs and the members of a model. -/
inductive HasSite (types : Types) : Site → Prop
  | typedef {key : String} {t : Typedef} (hd : types.get? key = some (.typedef t)) :
      HasSite types ⟨t.type, t.attr⟩
  | member {key : String} {s : Struct} {m : Member} (hd : types.get? key = some (.struct s))
      (hm : m ∈ s.members.getD []) : HasSite types ⟨m.type, m.attr⟩
  | part {s p : Site} (h : HasSite types s) (hp : s.Part p) : HasSite types p

/-- Attributes of the keys of a dict that does not say which type its keys have. -/
def UntypedKey (types : Types) (a : Attributes) : Prop :=
  ∃ value valueAttr attr, types.HasSite ⟨.dict value valueAttr none (some a), attr⟩

/-- The sites that a run comes to when it starts from a name. -/
inductive Visits (types : Types) : Site → Prop
  | start {name : String} (h : types.IsType name) : Visits types ⟨.user name, none⟩
  | site {s : Site} (h : types.HasSite s) : Visits types s
  | key {value : TypeRef} {valueAttr keyAttr attr : Option Attributes}
      (h : types.HasSite ⟨.dict value valueAttr none keyAttr, attr⟩) :
      Visits types ⟨.builtin .string, keyAttr⟩

variable {types : Types}

theorem WellFormed.site (hw : types.WellFormed) {s : Site} (h : types.HasSite s) :
    s.WellFormed types := by
  induction h with
  | typedef hd => exact hw.typedefSite hd
  | member hd hm => exact hw.memberSite hd hm
  | part _ hp ih => exact fun q hq => ih q (hp.trans hq)

theorem hasSite_of_hasItem {s : Struct} {m : Member} (hm : Struct.heritage.HasItem types s m)
    {key : String} (hd : types.get? key = some (.struct s)) :
    types.HasSite ⟨m.type, m.attr⟩ := by
  induction hm generalizing key with
  | own hm => exact .member hd hm
  | inherited _ hb _ ih =>
    obtain ⟨target, ht⟩ := (structBase?_eq_some_iff.1 hb).exists_get?
    exact ih ht

namespace Visits

variable {ty : TypeRef} {attr : Option Attributes}

theorem isType (hw : types.WellFormed) {name : String}
    (h : types.Visits ⟨.user name, attr⟩) : types.IsType name := by
  cases h with
  | start h => exact h
  | site h => exact (hw.site h _ .whole).isType rfl

/-- Containers are visited where they are written. -/
theorem hasSite_array {element : TypeRef} {elementAttr : Option Attributes}
    (h : types.Visits ⟨.array element elementAttr, attr⟩) :
    types.HasSite ⟨.array element elementAttr, attr⟩ := by
  cases h with
  | site h => exact h

theorem hasSite_dict {value : TypeRef} {valueAttr keyAttr : Option Attributes}
    {key : Option TypeRef} (h : types.Visits ⟨.dict value valueAttr key keyAttr, attr⟩) :
    types.HasSite ⟨.dict value valueAttr key keyAttr, attr⟩ := by
  cases h with
  | site h => exact h

theorem dictKey {value : TypeRef} {valueAttr keyAttr : Option Attributes}
    {key : Option TypeRef} (h : types.Visits ⟨.dict value valueAttr key keyAttr, attr⟩) :
    types.Visits ⟨key.getD (.builtin .string), keyAttr⟩ := by
  cases key with
  | none => exact .key h.hasSite_dict
  | some key => exact .site (.part h.hasSite_dict (.key .whole))

theorem isKeyType (hw : types.WellFormed) {value : TypeRef}
    {valueAttr keyAttr : Option Attributes} {key : Option TypeRef}
    (h : types.Visits ⟨.dict value valueAttr key keyAttr, attr⟩) :
    Site.isKeyType types (types.effective (key.getD (.builtin .string))) = true := by
  refine Validate.isKeyType_getD ?_
  rintro ty rfl
  obtain ⟨aliases, target, hl, hk⟩ := (hw.site h.hasSite_dict _ .whole).isKey rfl
  rw [effective_of_leads hl]
  exact TypeRef.isKey_iff.2 hk

/-- What an alias stands for is visited with the attributes of the last typedef. -/
theorem target {aliases : List (String × Typedef)} {inner : TypeRef}
    (hl : types.Leads ty aliases inner) (h : types.Visits ⟨ty, attr⟩) :
    ∃ attr, types.Visits ⟨inner, attr⟩ := by
  induction hl generalizing attr with
  | here _ => exact ⟨attr, h⟩
  | step hd _ ih => exact ih (.site (.typedef hd))

end Visits

end Types

namespace Validate

variable {types : Types}

/-! ## What is read has the measure of its type -/

theorem Reads.measured {p : Place} {v w : Value} (h : Reads types p v w)
    {aliases : List (String × Typedef)} {target : TypeRef} {m : Measure}
    (hl : types.Leads p.ty aliases target) (ha : target.Admits m) :
    w = .null ∨ (w.measured? m).isSome = true := by
  induction h generalizing aliases with
  | null _ _ => exact .inl rfl
  | value _ _ _ _ _ ih => exact ih hl
  | typedef hd _ _ ih =>
    cases hl with
    | here h =>
      rw [Place.ty, Types.isTypedef_user hd] at h
      simp at h
    | step hd' hl =>
      rw [hd] at hd'
      cases hd'
      exact ih hl
  | builtin h =>
    cases hl with
    | here _ =>
      have hb := Builtin.holds_of_convert? h
      cases ha <;> obtain ⟨x, rfl⟩ := hb <;> exact .inr rfl
  | array _ _ _ _ =>
    cases hl with
    | here _ =>
      cases ha
      exact .inr rfl
  | dict _ _ _ _ _ _ =>
    cases hl with
    | here _ =>
      cases ha
      exact .inr rfl
  | enum hd _ =>
    cases hl with
    | here _ => cases ha
    | step hd' _ => simp [hd] at hd'
  | struct hd _ _ _ _ _ _ _ =>
    cases hl with
    | here _ => cases ha
    | step hd' _ => simp [hd] at hd'

/-! ## Sound events -/

/-- A name is a type, an alias ends, a walk meets no base again, a key is written as it is given or
as null, and a bound is about something that the value has.  On a key without a type, which is a
text, a bound may also be about a number. -/
def Event.Sound (types : Types) : Event → Prop
  | .undefined _ => False
  | .circular _ => False
  | .walk repeats => repeats = false
  | .check attr w => ∀ a b, attr = some a → b ∈ a.bounds → w = .null
      ∨ (w.measured? b.measure).isSome = true
      ∨ (types.UntypedKey a ∧ b.measure = .number ∧ ∃ s, w = .string s)
  | .write given written => written = .null ∨ written = given

namespace Run

variable {α β : Type}

def Sound (types : Types) (r : Run α) : Prop := ∀ e ∈ r.events, e.Sound types

theorem sound_quiet (x : Except Failure α) : (quiet x).Sound types := by
  intro e he
  cases he

theorem sound_after {e : Event} (h : e.Sound types) (x : Except Failure α) :
    (after e x).Sound types := by
  intro e' he
  rw [List.mem_singleton.1 he]
  exact h

theorem Sound.bind {r : Run α} {f : α → Run β} (hr : r.Sound types)
    (hf : ∀ a, r.result = .ok a → (f a).Sound types) : (r >>= f).Sound types := by
  obtain ⟨events, result⟩ := r
  cases result with
  | error failure => exact hr
  | ok a => exact List.forall_mem_append.2 ⟨hr, hf a rfl⟩

theorem sound_after_bind {e : Event} {r : Run α} (h : e.Sound types) (hr : r.Sound types) :
    (after e (.ok ()) >>= fun _ => r).Sound types := (sound_after h _).bind fun _ _ => hr

/-! ### Sites and aliases -/

/-- What is read at a site that a run comes to has what the bounds there are about. -/
theorem sound_check (hw : types.WellFormed) {ty expected : TypeRef} {attr : Option Attributes}
    {v w : Value} {path : Path} (hv : types.Visits ⟨ty, attr⟩)
    (hr : w = .null ∨ Reads types (.type ty) v w) : (check expected attr w path).Sound types := by
  refine sound_after ?_ _
  intro a b ha hb
  rcases hr with hn | hr
  · exact .inl hn
  cases hv with
  | start _ => simp at ha
  | site hs =>
    obtain ⟨aliases, target, hl, hadm⟩ := (hw.site hs _ .whole).admits ha hb
    exact (hr.measured hl hadm).imp_right .inl
  | key hd =>
    subst ha
    obtain ⟨s, rfl⟩ : ∃ s, w = .string s :=
      Builtin.holds_of_convert? (b := .string) (reads_builtin_iff.1 hr)
    refine .inr ?_
    cases hm : b.measure with
    | number => exact .inr ⟨⟨_, _, _, hd⟩, rfl, s, rfl⟩
    | length => exact .inl rfl

theorem sound_site (hw : types.WellFormed) {ty expected : TypeRef} {attr : Option Attributes}
    {v : Value} {path : Path} {r : Run Value} (hv : types.Visits ⟨ty, attr⟩) (hs : r.Sound types)
    (hr : ∀ w, r.result = .ok w → Reads types (.type ty) v w) (isNull : Bool) :
    (do
      let w ← if isNull then pure .null else r
      check expected attr w path
      pure w : Run Value).Sound types := by
  have hc : ∀ w, (w = .null ∨ Reads types (.type ty) v w) →
      (check expected attr w path >>= fun _ => pure w : Run Value).Sound types :=
    fun w hw' => (sound_check hw hv hw').bind fun _ _ => sound_quiet _
  cases isNull with
  | true =>
    refine (sound_quiet (.ok Value.null)).bind fun w hn => hc w (.inl ?_)
    exact (Except.ok.inj hn).symm
  | false => exact hs.bind fun w h => hc w (.inr (hr w h))

theorem sound_element (hw : types.WellFormed) {v : Value} {course : Course} {ty : TypeRef}
    {attr : Option Attributes} {path : Path} (hv : types.Visits ⟨ty, attr⟩)
    (hs : (course ty path).Sound types)
    (hr : ∀ w, (course ty path).result = .ok w → Reads types (.type ty) v w) :
    (element v course ty attr path).Sound types := sound_site hw hv hs hr _

theorem sound_alongAliases (hw : types.WellFormed) {v : Value} {path : Path}
    {target : Unit → Run Value} {ty inner : TypeRef} {aliases : List (String × Typedef)}
    (hl : types.Leads ty aliases inner)
    (hr : ∀ {ty aliases w}, types.Leads ty aliases inner →
      (alongAliases v path target aliases).result = .ok w → Reads types (.type ty) v w)
    (hs : (target ()).Sound types) : (alongAliases v path target aliases).Sound types := by
  induction hl with
  | here _ => exact hs
  | step hd hl ih =>
    exact sound_site (v := v) hw (.site (.typedef hd)) (ih hr) (fun w h => hr hl h) _

theorem sound_resolved (hw : types.WellFormed) {v : Value} {ty : TypeRef} {path : Path}
    {attr : Option Attributes} {target : TypeRef → Run Value} (hv : types.Visits ⟨ty, attr⟩)
    (hr : ∀ {ty w}, (resolved types v ty path target).result = .ok w → Reads types (.type ty) v w)
    (hs : ∀ {inner attr}, types.isTypedef inner = false → types.Visits ⟨inner, attr⟩ →
      (target inner).Sound types) :
    (resolved types v ty path target).Sound types := by
  have he : ∀ {ty aliases inner}, types.Leads ty aliases inner →
      resolved types v ty path target = alongAliases v path (fun _ => target inner) aliases := by
    intro ty aliases inner hl
    obtain ⟨hc, hres⟩ := Types.leads_iff.1 hl
    rw [resolved, hc, hres]
    rfl
  obtain ⟨aliases, hl⟩ := hw.aliasesEnd.leads ty
  obtain ⟨attr', hv'⟩ := hv.target hl
  rw [he hl]
  refine sound_alongAliases hw hl (fun hl' h => ?_) (hs hl.target hv')
  rw [← he hl'] at h
  exact hr h

/-! ### Containers -/

theorem reads_of_result {v w : Value} {ty : TypeRef} {path : Path}
    (h : (value types v ty path).result = .ok w) : Reads types (.type ty) v w := by
  rw [(traces_value v ty path).result] at h
  exact value_eq_ok_iff.1 h

theorem sound_presentMembers (hw : types.WellFormed) {s : Struct} {path : Path}
    {entries : List (Key × Value)}
    (ih : ∀ e ∈ entries, ∀ ty attr path, types.Visits ⟨ty, attr⟩ →
      (value types e.2 ty path).Sound types) {members : List Member}
    (hm : ∀ m ∈ members, types.HasSite ⟨m.type, m.attr⟩) :
    (presentMembers s path (memberCourses types entries) members).Sound types := by
  induction members with
  | nil => exact sound_quiet _
  | cons m members ihm =>
    obtain ⟨hs, hr⟩ := List.forall_mem_cons.1 hm
    rw [presentMembers, get?_memberCourses]
    cases hg : Entries.get? (.text m.name) entries with
    | none =>
      simp only [Option.map_none]
      split
      · exact sound_quiet _
      · exact ihm hr
    | some v =>
      have hv := ih _ (Entries.mem_of_get? hg) _ _ (path ++ [m.name]) (.site hs)
      exact (sound_element hw (.site hs) hv fun w h => reads_of_result h).bind fun w _ =>
        (ihm hr).bind fun rest _ => sound_quiet _

theorem sound_struct (entries : List (Key × Value)) (hw : types.WellFormed) {name : String}
    {s : Struct} {v : Value} {ty : TypeRef} {path : Path}
    (hd : types.get? name = some (.struct s))
    (ih : ∀ e ∈ entries, ∀ ty attr path, types.Visits ⟨ty, attr⟩ →
      (value types e.2 ty path).Sound types) :
    (struct types s v (memberCourses types entries) ty path).Sound types := by
  rw [struct]
  split
  · exact sound_quiet _
  · have hwalk := ((Types.regular_iff Heritage.named_struct).1 (hw.struct hd)).1
    have hm : ∀ m ∈ types.members s, types.HasSite ⟨m.type, m.attr⟩ := fun m hm =>
      Types.hasSite_of_hasItem (Types.hasItem_of_mem_walk hm) hd
    refine sound_after_bind hwalk ((sound_presentMembers hw ih hm).bind fun pairs _ => ?_)
    dsimp only
    split
    · exact sound_quiet _
    · cases unknownKey? (types.members s) (Entries.keys (memberCourses types entries)) with
      | none => exact sound_quiet _
      | some key => exact sound_quiet _

theorem sound_itemsFrom (hw : types.WellFormed) {items : List Value} {ty : TypeRef}
    {attr : Option Attributes} {path : Path} {i : Nat} (hv : types.Visits ⟨ty, attr⟩)
    (ih : ∀ v ∈ items, ∀ ty attr path, types.Visits ⟨ty, attr⟩ →
      (value types v ty path).Sound types) :
    (itemsFrom types items ty attr path i).Sound types := by
  induction items generalizing i with
  | nil => exact sound_quiet _
  | cons v items ihr =>
    obtain ⟨hs, hr⟩ := List.forall_mem_cons.1 ih
    rw [itemsFrom]
    exact (sound_element hw hv (hs _ _ _ hv) fun w h => reads_of_result h).bind fun w _ =>
      (ihr hr).bind fun ws _ => sound_quiet _

/-! ### Values -/

theorem sound_flat (hw : types.WellFormed) {v : Value} {ty : TypeRef} {attr : Option Attributes}
    {path : Path} (hi : types.isTypedef ty = false) (hv : types.Visits ⟨ty, attr⟩) :
    (flat types v ty path).Sound types := by
  cases ty with
  | user name =>
    obtain ⟨d, hd, hna⟩ := hv.isType hw
    cases d with
    | enum e =>
      have hwalk := ((Types.regular_iff Heritage.named_enum).1 (hw.enum hd)).1
      simp only [flat, hd]
      split
      · exact sound_after (e := .walk _) hwalk _
      · exact sound_quiet _
    | struct s =>
      simp only [flat, hd]
      split
      · exact sound_struct [] hw hd (by simp)
      · exact sound_quiet _
    | typedef t => simp [Types.isTypedef_user hd] at hi
    | action a => exact absurd rfl (hna a)
  | _ => exact sound_quiet _

theorem sound_leaf (hw : types.WellFormed) {v : Value} {ty : TypeRef} {attr : Option Attributes}
    {path : Path} (hc : v.isContainer = false) (hv : types.Visits ⟨ty, attr⟩) :
    (leaf types v ty path).Sound types := by
  refine sound_resolved hw hv (fun {ty w} h => ?_) fun hi hv => sound_flat hw hi hv
  have hl : (leaf types v ty path).result = .ok w := h
  rw [← value_scalar hc] at hl
  exact reads_of_result hl

/-- A key is written as null or as it was. -/
theorem sound_dictEntries (hw : types.WellFormed) {entries : List (Key × Value)}
    {ty keyType : TypeRef} {attr keyAttr : Option Attributes} {path : Path}
    (hv : types.Visits ⟨ty, attr⟩) (hk : types.Visits ⟨keyType, keyAttr⟩)
    (hkt : Site.isKeyType types (types.effective keyType) = true)
    (ih : ∀ e ∈ entries, ∀ ty attr path, types.Visits ⟨ty, attr⟩ →
      (value types e.2 ty path).Sound types) :
    (dictEntries types entries ty attr keyType keyAttr path).Sound types := by
  induction entries with
  | nil => exact sound_quiet _
  | cons e entries ihr =>
    obtain ⟨k, v⟩ := e
    obtain ⟨hs, hr⟩ := List.forall_mem_cons.1 ih
    have hleaf : ∀ w, (leaf types (.ofKey k) keyType path).result = .ok w
        ↔ Reads types (.type keyType) (.ofKey k) w := fun w => by
      rw [(traces_leaf _ _ _).result]
      exact leaf_eq_ok_iff (Value.isContainer_ofKey k)
    rw [dictEntries]
    refine (sound_element hw hk (sound_leaf hw (Value.isContainer_ofKey k) hk)
      fun w h => (hleaf w).1 h).bind fun key hkey => ?_
    refine (sound_element hw hv (hs _ _ _ hv) fun w h => reads_of_result h).bind fun w _ => ?_
    refine sound_after_bind ?_ ((ihr hr).bind fun rest _ => sound_quiet _)
    rw [(traces_element (traces_leaf _ _ _) keyAttr).result, element_eq_ok_iff fun w =>
      leaf_eq_ok_iff (Value.isContainer_ofKey k)] at hkey
    rcases hkey.key hkt with ⟨rfl, -⟩ | ⟨s, rfl, hks⟩
    · exact .inl rfl
    · refine .inr ?_
      rw [← hks, keyOf_ofKey]

theorem sound_value (hw : types.WellFormed) (v : Value) (ty : TypeRef) (attr : Option Attributes)
    (path : Path) (hv : types.Visits ⟨ty, attr⟩) : (value types v ty path).Sound types := by
  induction v generalizing ty attr path with
  | scalar v hc =>
    rw [value_scalar hc]
    exact sound_leaf hw hc hv
  | array items ih =>
    rw [value]
    refine sound_resolved hw hv (fun h => reads_of_result (v := .array items) h)
      fun {inner attr} hi hv => ?_
    cases inner with
    | array element elementAttr =>
      refine (sound_itemsFrom hw ?_ ih).bind fun ws _ => sound_quiet _
      exact .site (.part hv.hasSite_array (.element .whole))
    | _ => exact sound_flat hw hi hv
  | object entries ih =>
    rw [value]
    refine sound_resolved hw hv (fun h => reads_of_result (v := .object entries) h)
      fun {inner attr} hi hv => ?_
    cases inner with
    | dict ty valueAttr key keyAttr =>
      have hvalue : types.Visits ⟨ty, valueAttr⟩ := .site (.part hv.hasSite_dict (.value .whole))
      exact (sound_dictEntries hw hvalue hv.dictKey (hv.isKeyType hw) ih).bind fun ws _ =>
        sound_quiet _
    | user name =>
      cases hs : struct? types (.user name) with
      | none =>
        simp only [hs]
        exact sound_flat hw hi hv
      | some s =>
        simp only [hs]
        exact sound_struct _ hw (struct?_eq_some_iff.1 hs) ih
    | _ => exact sound_flat hw hi hv

/-- A name that is no type is not looked into. -/
theorem events_of_not_isType {name : String} (h : ¬types.IsType name) (v : Value) (path : Path) :
    (value types v (.user name) path).events = [.undefined name] := by
  have hd : types.get? name = none ∨ ∃ a, types.get? name = some (.action a) := by
    cases hd : types.get? name with
    | none => exact .inl rfl
    | some d =>
      cases d with
      | action a => exact .inr ⟨a, rfl⟩
      | _ => exact absurd ⟨_, hd, by simp⟩ h
  have hi : types.isTypedef (.user name) = false := by
    rcases hd with hd | ⟨a, hd⟩ <;> simp [Types.isTypedef, hd]
  have hs : struct? types (.user name) = none := by
    rcases hd with hd | ⟨a, hd⟩ <;> simp [struct?, hd, Definition.struct?]
  have hf : (flat types v (.user name) path).events = [.undefined name] := by
    rcases hd with hd | ⟨a, hd⟩ <;> simp only [flat, hd] <;> rfl
  have hr : ∀ target : TypeRef → Run Value,
      resolved types v (.user name) path target = target (.user name) := fun target => by
    rw [resolved, Types.isCircular_of_not_isTypedef hi, Types.resolve_of_not_isTypedef hi]
    rfl
  cases v with
  | array items =>
    simp only [value, hr]
    exact hf
  | object entries =>
    simp only [value, hr, hs]
    exact hf
  | _ => rw [value_scalar rfl, leaf, hr, hf]

end Run

end Validate

/-! ## Runs from a name -/

namespace Types

variable {types : Types}

theorem sound_runAs (h : types.lint = []) {name : String} (ht : types.IsType name) (v : Value) :
    (types.runAs name v).Sound types := by
  rw [runAs]
  split
  · exact Validate.Run.sound_value (wellFormed_of_lint h) v _ none [] (.start ht)
  · exact Validate.Run.sound_quiet _

theorem sound_of_mem_runAs (h : types.lint = []) {name : String} {v : Value}
    {attr : Option Attributes} {w : Value} (he : .check attr w ∈ (types.runAs name v).events) :
    (Validate.Event.check attr w).Sound types := by
  by_cases ht : types.IsType name
  · exact sound_runAs h ht v _ he
  · rw [runAs] at he
    split at he
    · rw [Validate.Run.events_of_not_isType ht] at he
      simp at he
    · simp [Validate.Run.quiet] at he

end Types

/-- A run from a type of a model without findings meets no name that is no type, no alias that does
not end and no base twice, and leaves the keys of dicts as they are. -/
theorem validateAs_safe {types : Types} {name : String} {d : Definition} (hl : types.lint = [])
    (hd : types.get? name = some d) (ha : ∀ a, d ≠ .action a) (v : Value) :
    (types.runAs name v).result = types.validateAs name v
      ∧ (∀ n, .undefined n ∉ (types.runAs name v).events)
      ∧ (∀ ty, .circular ty ∉ (types.runAs name v).events)
      ∧ .walk true ∉ (types.runAs name v).events
      ∧ ∀ given written, .write given written ∈ (types.runAs name v).events →
          written = .null ∨ written = given := by
  have hs := Types.sound_runAs hl ⟨d, hd, ha⟩ v
  refine ⟨(types.traces_validateAs name v).result, fun n he => hs _ he, fun ty he => hs _ he,
    fun he => ?_, fun given written he => hs _ he⟩
  have hw : true = false := hs _ he
  simp at hw

theorem validateAs_safe_sample :
    Types.sample.lint = [] ∧ Types.sample.get? "Tally" = some (.struct Struct.sample)
      ∧ .walk true ∉ (Types.sample.runAs "Tally" Value.sample).events :=
  have hd : Types.sample.get? "Tally" = some (.struct Struct.sample) := rfl
  ⟨Types.lint_sample, hd, (validateAs_safe Types.lint_sample hd (by simp) Value.sample).2.2.2.1⟩

/-- In any model, a value that is refused for a name that is no type, or for an alias that does not
end, is refused where a run meets it. -/
theorem Types.met_of_validateAs {types : Types} {name : String} {v w : Value} {path : Path}
    {expected : String} {cause : Cause}
    (h : types.validateAs name v = .error (.invalid w path expected cause)) :
    (cause = .undefinedType → ∃ n, .undefined n ∈ (types.runAs name v).events)
      ∧ (cause = .circularAlias → ∃ ty, .circular ty ∈ (types.runAs name v).events) := by
  have ht := (types.traces_validateAs name v).tells h
  constructor
  · rintro rfl
    exact ht
  · rintro rfl
    exact ht

/-- So no value is refused for them in a model without findings. -/
theorem Types.cause_ne_of_lint {types : Types} {name : String} {v w : Value} {path : Path}
    {expected : String} {cause : Cause} (hl : types.lint = []) (ht : types.IsType name)
    (h : types.validateAs name v = .error (.invalid w path expected cause)) :
    cause ≠ .undefinedType ∧ cause ≠ .circularAlias := by
  have hs := sound_runAs hl ht v
  obtain ⟨hundefined, hcircular⟩ := met_of_validateAs h
  constructor
  · intro hc
    obtain ⟨n, he⟩ := hundefined hc
    exact hs _ he
  · intro hc
    obtain ⟨ty, he⟩ := hcircular hc
    exact hs _ he

/-! ## Bounds on keys -/

/-- Where a bound is checked on a value without the measure for it, it is a bound on the number of a
dict key, and the dict does not say which type its keys have. -/
theorem check_measured {types : Types} (hl : types.lint = []) (name : String) (v : Value) :
    (∀ a w b, .check (some a) w ∈ (types.runAs name v).events → w ≠ .null → b ∈ a.bounds →
      (w.measured? b.measure).isSome = true
        ∨ (types.UntypedKey a ∧ b.measure = .number ∧ ∃ s, w = .string s))
      ∧ ∀ w path expected b,
        types.validateAs name v = .error (.invalid w path expected (.unmeasured b)) →
          b.measure = .number ∧ ∃ a, types.UntypedKey a ∧ b ∈ a.bounds := by
  have hc : ∀ a w b, .check (some a) w ∈ (types.runAs name v).events → w ≠ .null → b ∈ a.bounds →
      (w.measured? b.measure).isSome = true
        ∨ (types.UntypedKey a ∧ b.measure = .number ∧ ∃ s, w = .string s) :=
    fun a w b he hn hb => ((Types.sound_of_mem_runAs hl he) a b rfl hb).resolve_left hn
  refine ⟨hc, fun w path expected b h => ?_⟩
  obtain ⟨a, u, he, hb, hn, hm⟩ := (types.traces_validateAs name v).tells h
  have hne : u ≠ .null := by
    rintro rfl
    simp [Value.isNull] at hn
  rcases hc a u b he hne hb with hs | ⟨hk, hnum, -⟩
  · simp [hm] at hs
  · exact ⟨hnum, a, hk, hb⟩

/-- A dict with a bound on the numbers that its keys are, and no type for them. -/
def Types.numberedKeys (x : Float) : Types :=
  .ofList
    [("Rates", .typedef
      { name := "Rates"
        type := .dict (.builtin .int) none none (some (({} : Attributes).setNumber .gt x)) })]

theorem Types.lint_numberedKeys (x : Float) : (numberedKeys x).lint = [] := by cbv

/-- No key of such a dict is accepted. -/
theorem Types.validateAs_numberedKeys (x : Float) :
    (numberedKeys x).validateAs "Rates" (.object [(.text "a", .int 1)])
      = .error (.invalid (.string "a") [] "string" (.unmeasured ⟨.number, .gt, x⟩)) := by cbv

theorem check_measured_numberedKeys :
    (Types.numberedKeys (Float.ofNat 5)).lint = []
      ∧ ∃ a, (Types.numberedKeys (Float.ofNat 5)).UntypedKey a
        ∧ ⟨.number, .gt, Float.ofNat 5⟩ ∈ a.bounds :=
  have hl := Types.lint_numberedKeys (Float.ofNat 5)
  have h := Types.validateAs_numberedKeys (Float.ofNat 5)
  ⟨hl, ((check_measured hl "Rates" (.object [(.text "a", .int 1)])).2 _ _ _ _ h).2⟩

/-- The linter finds nothing in a dict that refuses its keys for a bound that no text can meet. -/
theorem exists_unmeasured_key :
    ¬∀ (types : Types) (name : String) (v : Value), types.lint = [] →
      ∀ w path expected b,
        types.validateAs name v ≠ .error (.invalid w path expected (.unmeasured b)) := fun h =>
  h _ _ _ (Types.lint_numberedKeys (Float.ofNat 5)) _ _ _ _
    (Types.validateAs_numberedKeys (Float.ofNat 5))

end SchemaLang
