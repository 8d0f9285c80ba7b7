import SchemaLang.Proofs.Model.Shared
import SchemaLang.Proofs.Validate.Equivalence

/-!
# Validation looks only at what a type needs

A validator asks a model for the definitions of names, and every name it asks for is mentioned on
the way from the type that it starts with: in members, own and inherited ones, behind aliases, in
elements, values and keys.  So two models that share the definitions a type needs give the same
answer for every value, and a failure is the same in all its parts, whether or not the models make
sense.

* `Validate.Shares.value`: validating against a type that is written with shared names.
* `validateAs_restrict`: neither the restriction to what a type needs nor any other change of what
  it does not need makes a difference.
-/

namespace SchemaLang

namespace Validate

variable {S : Set String} {a b : Types}

/-! ## Sites and aliases -/

theorem element_congr {v : Value} {check check' : Check} {ty : TypeRef} {path : Path}
    (h : check ty path = check' ty path) (attr : Option Attributes) :
    element v check ty attr path = element v check' ty attr path := by
  rw [element, element, h]

theorem alongAliases_congr {v : Value} {path : Path} {target target' : Unit → Except Failure Value}
    (h : target () = target' ()) (aliases : List (String × Typedef)) :
    alongAliases v path target aliases = alongAliases v path target' aliases := by
  induction aliases with
  | nil => exact h
  | cons e aliases ih => rw [alongAliases, alongAliases, ih]

end Validate

namespace Types.Shares

variable {S : Set String} {a b : Types}

/-- Both models send the value on to the same type. -/
theorem resolved {v : Value} {ty : TypeRef} {path : Path}
    {target target' : TypeRef → Except Failure Value} (hs : Shares S a b) (hty : ty.Within S)
    (h : ∀ inner : TypeRef, inner.Within S → target inner = target' inner) :
    Validate.resolved a v ty path target = Validate.resolved b v ty path target' := by
  rw [Validate.resolved, Validate.resolved, ← hs.isCircular hty, ← hs.resolve hty]
  split
  · rfl
  · exact Validate.alongAliases_congr (h _ (hs.within_resolve hty)) _

/-! ## Containers -/

/-- Two ways to validate a value agree on types that are written with shared names. -/
def SameChecks (S : Set String) (check check' : Check) : Prop :=
  ∀ ty : TypeRef, ty.Within S → ∀ path, check ty path = check' ty path

theorem presentMembers {s : Struct} {path : Path} {entries : List (Key × Value)}
    (h : ∀ e ∈ entries, SameChecks S (Validate.value a e.2) (Validate.value b e.2))
    {members : List Member} (hm : ∀ m ∈ members, m.type.Within S) :
    Validate.presentMembers s path (Validate.memberChecks a entries) members
      = Validate.presentMembers s path (Validate.memberChecks b entries) members := by
  induction members with
  | nil => rfl
  | cons m members ih =>
    obtain ⟨hty, hm⟩ := List.forall_mem_cons.1 hm
    rw [Validate.presentMembers, Validate.presentMembers, Validate.get?_memberChecks,
      Validate.get?_memberChecks, ih hm]
    cases hg : Entries.get? (.text m.name) entries with
    | none => rfl
    | some v =>
      have hv := h (.text m.name, v) (Entries.mem_of_get? hg) m.type hty (path ++ [m.name])
      simp only [Option.map_some, Validate.element_congr hv]

theorem struct {name : String} {s : Struct} {v : Value} {ty : TypeRef} {path : Path}
    (entries : List (Key × Value)) (hs : Shares S a b) (hn : name ∈ S)
    (hd : a.get? name = some (.struct s))
    (h : ∀ e ∈ entries, SameChecks S (Validate.value a e.2) (Validate.value b e.2)) :
    Validate.struct a s v (Validate.memberChecks a entries) ty path
      = Validate.struct b s v (Validate.memberChecks b entries) ty path := by
  have hlen : (Validate.memberChecks a entries).length
      = (Validate.memberChecks b entries).length := by
    rw [Validate.memberChecks_eq_map, Validate.memberChecks_eq_map, List.length_map,
      List.length_map]
  have hpresent : Validate.presentMembers s path (Validate.memberChecks a entries) (a.members s)
      = Validate.presentMembers s path (Validate.memberChecks b entries) (a.members s) :=
    presentMembers h (hs.within_members hn hd)
  rw [Validate.struct, Validate.struct, hlen, Validate.keys_memberChecks,
    Validate.keys_memberChecks, ← hs.members hn hd]
  simp only [hpresent]

theorem itemsFrom {items : List Value} {ty : TypeRef} {attr : Option Attributes} {path : Path}
    {i : Nat} (hty : ty.Within S)
    (h : ∀ v ∈ items, SameChecks S (Validate.value a v) (Validate.value b v)) :
    Validate.itemsFrom a items ty attr path i = Validate.itemsFrom b items ty attr path i := by
  induction items generalizing i with
  | nil => rfl
  | cons v items ih =>
    obtain ⟨hv, h⟩ := List.forall_mem_cons.1 h
    rw [Validate.itemsFrom, Validate.itemsFrom, ih h, Validate.element_congr (hv ty hty _)]

/-! ## Values -/

theorem flat {v : Value} {ty : TypeRef} {path : Path} (hs : Shares S a b) (hty : ty.Within S) :
    Validate.flat a v ty path = Validate.flat b v ty path := by
  cases ty with
  | user name =>
    have hn := TypeRef.within_user.1 hty
    simp only [Validate.flat, ← hs.get? name hn]
    cases hd : a.get? name with
    | none => rfl
    | some d =>
      cases d with
      | enum e => simp only [hs.values hn hd]
      | struct s =>
        have hempty : Validate.struct a s v [] (.user name) path
            = Validate.struct b s v [] (.user name) path := hs.struct [] hn hd (by simp)
        simp only [hempty]
      | _ => rfl
  | _ => rfl

theorem leaf (v : Value) (hs : Shares S a b) :
    SameChecks S (Validate.leaf a v) (Validate.leaf b v) :=
  fun _ hty _ => hs.resolved hty fun _ hinner => hs.flat hinner

theorem dictEntries {entries : List (Key × Value)} {ty keyType : TypeRef}
    {attr keyAttr : Option Attributes} {path : Path} (hs : Shares S a b) (hty : ty.Within S)
    (hkey : keyType.Within S)
    (h : ∀ e ∈ entries, SameChecks S (Validate.value a e.2) (Validate.value b e.2)) :
    Validate.dictEntries a entries ty attr keyType keyAttr path
      = Validate.dictEntries b entries ty attr keyType keyAttr path := by
  induction entries with
  | nil => rfl
  | cons e entries ih =>
    obtain ⟨k, v⟩ := e
    obtain ⟨hv, h⟩ := List.forall_mem_cons.1 h
    rw [Validate.dictEntries, Validate.dictEntries, ih h, Validate.element_congr (hv ty hty _),
      Validate.element_congr (hs.leaf (.ofKey k) keyType hkey _)]

theorem value (hs : Shares S a b) (v : Value) :
    SameChecks S (Validate.value a v) (Validate.value b v) := by
  intro ty hty path
  induction v generalizing ty path with
  | scalar v hscalar =>
    rw [Validate.value_scalar hscalar, Validate.value_scalar hscalar]
    exact hs.leaf v ty hty path
  | array items ih =>
    rw [Validate.value, Validate.value]
    refine hs.resolved hty fun inner hinner => ?_
    cases inner with
    | array element attr =>
      have hitems : Validate.itemsFrom a items element attr path 0
          = Validate.itemsFrom b items element attr path 0 :=
        itemsFrom (TypeRef.within_array hinner) fun v hv ty hty path => ih v hv ty hty path
      simp only [hitems]
    | _ => exact hs.flat hinner
  | object entries ih =>
    have hentries : ∀ e ∈ entries, SameChecks S (Validate.value a e.2) (Validate.value b e.2) :=
      fun e he ty hty path => ih e he ty hty path
    rw [Validate.value, Validate.value]
    refine hs.resolved hty fun inner hinner => ?_
    cases inner with
    | dict ty attr key keyAttr =>
      obtain ⟨hvalue, hkey⟩ := TypeRef.within_dict hinner
      simp only [hs.dictEntries hvalue hkey hentries]
    | user name =>
      have hn := TypeRef.within_user.1 hinner
      have hstruct : Validate.struct? a (.user name) = Validate.struct? b (.user name) := by
        rw [Validate.struct?, Validate.struct?, hs.get? name hn]
      simp only [← hstruct]
      cases hd : Validate.struct? a (.user name) with
      | none => exact hs.flat hinner
      | some s => exact hs.struct entries hn (Validate.struct?_eq_some_iff.1 hd) hentries
    | _ => exact hs.flat hinner

theorem validateAs {name : String} (hs : Shares S a b) (hn : name ∈ S) (v : Value) :
    a.validateAs name v = b.validateAs name v := by
  rw [Types.validateAs, Types.validateAs, NameMap.contains, NameMap.contains, ← hs.get? name hn,
    validate, validate, hs.value v (.user name) (TypeRef.within_user.2 hn)]

end Types.Shares

/-- Restricting a model to what a type needs changes no result and no failure, and neither does any
other change that keeps the definitions which the type needs, and keeps undefined which of them
are. -/
theorem validateAs_restrict (types : Types) (name : String) :
    (∀ v, (types.restrict name).validateAs name v = types.validateAs name v)
      ∧ ∀ other : Types, (∀ needed, types.Needs name needed →
          other.get? needed = types.get? needed) →
        ∀ v, other.validateAs name v = types.validateAs name v := by
  have hshared : ∀ other : Types, (∀ needed, types.Needs name needed →
      other.get? needed = types.get? needed) →
      ∀ v, other.validateAs name v = types.validateAs name v :=
    fun other h v => ((Types.shares_needs h).validateAs .refl v).symm
  exact ⟨hshared _ fun _ hn => Types.get?_restrict_of_needs hn, hshared⟩

/-- A struct whose base is behind an alias, with an alias that leads nowhere, a name that is not
defined, and definitions that nothing needs. -/
def Types.tangled : Types :=
  .ofList
    [("Alias", .typedef { name := "Alias", type := .user "Base" }),
      ("Base", .struct
        { name := "Base"
          members := some
            [{ name := "all", type := .array (.user "Item") none, optional := true }] }),
      ("Item", .struct
        { name := "Item"
          bases := some ["Alias"]
          members := some
            [{ name := "by"
               type := .dict (.user "Loop") none (some (.user "Missing")) none }] }),
      ("Loop", .typedef { name := "Loop", type := .user "Loop" }),
      ("Spare", .struct { name := "Base", bases := some ["Item"] })]

/-- What the struct does not need is defined in another way. -/
def Types.tangledElse : Types :=
  (Types.tangled.insert "Spare" (.enum { name := "Item" })).insert "Unused"
    (.action { name := "A" })

/-- What `Item` needs, whether or not it is defined. -/
def Types.tangledNeeds : List String := ["Item", "Alias", "Base", "Loop", "Missing"]

theorem Types.mem_tangledNeeds {name : String} (h : tangled.Needs "Item" name) :
    name ∈ tangledNeeds :=
  h.mem (by decide) (by decide +kernel)

/-- An item inside another one, where the inner one has a key, whose type is not defined. -/
def Value.tangled : Value :=
  .object
    [(.text "all", .array [.object [(.text "by", .object [(.text "key", .null)])]]),
      (.text "by", .string "")]

theorem validateAs_restrict_tangled :
    (∀ needed, Types.tangled.Needs "Item" needed →
        Types.tangledElse.get? needed = Types.tangled.get? needed)
      ∧ Types.tangledElse.validateAs "Item" .tangled
        = Types.tangled.validateAs "Item" .tangled := by
  have h : ∀ needed, Types.tangled.Needs "Item" needed →
      Types.tangledElse.get? needed = Types.tangled.get? needed := by
    intro needed hn
    have hm := Types.mem_tangledNeeds hn
    simp only [Types.tangledNeeds, List.mem_cons, List.not_mem_nil, or_false] at hm
    rcases hm with rfl | rfl | rfl | rfl | rfl <;> rfl
  exact ⟨h, (validateAs_restrict Types.tangled "Item").2 _ h .tangled⟩

end SchemaLang
