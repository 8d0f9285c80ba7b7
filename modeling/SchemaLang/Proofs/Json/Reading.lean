import Mathlib.Data.List.DropRight
import SchemaLang.Json.Parser
import SchemaLang.Proofs.Entries
import SchemaLang.Proofs.Json.Numbers

/-!
# JSON that is written comes back

Both layouts write a value so that it is read back: strings from what is escaped in them, arrays and
objects item by item.  Blanks in front of an item are skipped, and the character after an item, a
comma, a blank or a bracket, ends it.  A document comes back if its numbers do, its members have
different names and it is not nested too deeply.

* `Json.readString_escape`: strings come back.
* `Json.readSequence_intercalate`: so do items between commas.
* `Json.reads_text`, `Json.parse_render`: so do whole values, in either layout.
-/

namespace SchemaLang.Json

variable {cs r rest : List Char}

/-! ## Strings -/

theorem prepend_ok {c : Char} : prepend c (.ok (cs, rest)) = .ok (c :: cs, rest) := rfl

theorem unit?_control {n : Nat} (h : n < 32) :
    unit? '0' '0' (hexDigit (n / 16)) (hexDigit (n % 16)) = some n := by
  have hall : ∀ n : Fin 32,
      unit? '0' '0' (hexDigit (n.val / 16)) (hexDigit (n.val % 16)) = some n.val := by decide
  exact hall ⟨n, h⟩

theorem readString_control {c : Char} (h : c.toNat < 32) :
    readString ('\\' :: 'u' :: '0' :: '0' :: hexDigit (c.toNat / 16) :: hexDigit (c.toNat % 16)
      :: rest) = prepend c (readString rest) := by
  have hhigh : isHighSurrogate c.toNat = false := by
    simp only [isHighSurrogate, Bool.and_eq_false_iff, decide_eq_false_iff_not]
    omega
  have hlow : isLowSurrogate c.toNat = false := by
    simp only [isLowSurrogate, Bool.and_eq_false_iff, decide_eq_false_iff_not]
    omega
  rw [readString, unit?_control h]
  simp [hhigh, hlow]

theorem readString_plain {c : Char} (hq : c ≠ '"') (hb : c ≠ '\\') (h : ¬c.toNat < 32) :
    readString (c :: rest) = prepend c (readString rest) := by
  rw [readString]
  · rw [if_neg (not_or.2 ⟨hb, h⟩)]
  · exact hq
  · exact fun _ _ _ _ _ he => absurd he hb
  · exact fun _ _ he => absurd he hb

theorem readString_escaped {c e : Char} (hu : e ≠ 'u') (h : unescape? e = some c) :
    readString ('\\' :: e :: rest) = prepend c (readString rest) := by
  rw [readString]
  · rw [h]
  · exact fun _ _ _ _ _ he => absurd he hu

/-- A character is written as a backslash and a letter, by its number, or as it is. -/
theorem escape_cases (c : Char) :
    (∃ e, escape c = ['\\', e] ∧ e ≠ 'u' ∧ unescape? e = some c)
      ∨ (escape c = ['\\', 'u', '0', '0', hexDigit (c.toNat / 16), hexDigit (c.toNat % 16)]
        ∧ c.toNat < 32)
      ∨ escape c = [c] ∧ c ≠ '"' ∧ c ≠ '\\' ∧ ¬c.toNat < 32 := by
  by_cases h : c ∈ ['"', '\\', '\x08', '\t', '\n', '\x0c', '\r']
  · simp only [List.mem_cons, List.not_mem_nil, or_false] at h
    obtain rfl | rfl | rfl | rfl | rfl | rfl | rfl := h <;> exact .inl ⟨_, rfl, by decide, rfl⟩
  · simp only [List.mem_cons, List.not_mem_nil, or_false, not_or] at h
    by_cases hc : c.toNat < 32
    · exact .inr (.inl ⟨by simp [escape, h, hc], hc⟩)
    · exact .inr (.inr ⟨by simp [escape, h, hc], h.1, h.2.1, hc⟩)

/-- Whatever is written for a character is read as it. -/
theorem readString_escape (c : Char) (rest : List Char) :
    readString (escape c ++ rest) = prepend c (readString rest) := by
  rcases escape_cases c with ⟨e, he, hu, hunescape⟩ | ⟨he, hc⟩ | ⟨he, hquote, hbackslash, hc⟩
  · rw [he]
    exact readString_escaped hu hunescape
  · rw [he]
    exact readString_control hc
  · rw [he]
    exact readString_plain hquote hbackslash hc

theorem readString_flatMap_escape (s rest : List Char) :
    readString (s.flatMap escape ++ '"' :: rest) = .ok (s, rest) := by
  induction s with
  | nil => rfl
  | cons c s ih => rw [List.flatMap_cons, List.append_assoc, readString_escape, ih, prepend_ok]

/-! ## Blanks -/

theorem isBlank_newLine (level : Nat) : ∀ c ∈ newLine level, isBlank c = true := by
  intro c hc
  rcases List.mem_cons.1 hc with rfl | hc
  · rfl
  · rw [(List.mem_replicate.1 hc).2]
    rfl

theorem skipBlanks_append {bs : List Char} (h : ∀ c ∈ bs, isBlank c = true) (cs : List Char) :
    skipBlanks (bs ++ cs) = skipBlanks cs :=
  List.dropWhile_append_of_pos h

theorem skipBlanks_cons {c : Char} (h : isBlank c = false) (cs : List Char) :
    skipBlanks (c :: cs) = c :: cs :=
  List.dropWhile_cons_of_neg (by simp [h])

theorem skipBlanks_skipBlanks (cs : List Char) : skipBlanks (skipBlanks cs) = skipBlanks cs :=
  List.dropWhile_idempotent _ _

theorem endsNumber_of_isBlank {c : Char} (h : isBlank c = true) :
    c.isDigit = false ∧ c ≠ '.' ∧ c ≠ 'e' ∧ c ≠ 'E' := by
  simp only [isBlank, Bool.or_eq_true, beq_iff_eq] at h
  obtain ((rfl | rfl) | rfl) | rfl := h <;> decide

/-- Blanks end a number, or what comes after them does. -/
theorem EndsNumber.blank {bs : List Char} (h : ∀ c ∈ bs, isBlank c = true)
    (hr : EndsNumber rest) : EndsNumber (bs ++ rest) := by
  cases bs with
  | nil => exact hr
  | cons b bs => exact endsNumber_cons (endsNumber_of_isBlank (h b List.mem_cons_self))

/-! ## Items between commas -/

/-- A reader of items that skips blanks in front of an item and finds none at the end of the text
or at the closing bracket. -/
structure ReadsItems {α : Type} (close : Char) (item : List Char → Parsed α) : Prop where
  skip : ∀ cs, item (skipBlanks cs) = item cs
  not_nil : ∀ x, item [] ≠ .ok x
  not_close : ∀ cs x, item (close :: cs) ≠ .ok x

variable {α : Type} {close : Char} {item : List Char → Parsed α}

/-- The text is read as the item before anything that ends a number. -/
def Reads (item : List Char → Parsed α) (text : List Char) (a : α) : Prop :=
  ∀ rest, EndsNumber rest → item (text ++ rest) = .ok (a, rest)

theorem readElements_skipBlanks (hi : ReadsItems close item) (n : Nat) (cs : List Char) :
    readElements close item n (skipBlanks cs) = readElements close item n cs := by
  cases n with
  | zero => rfl
  | succ n => rw [readElements, hi.skip, readElements]

/-- What stands behind the last item: blanks and the closing bracket. -/
theorem readSeparator_close {bs : List Char} (hb : ∀ c ∈ bs, isBlank c = true)
    (hc : isBlank close = false) (hcomma : close ≠ ',') :
    readSeparator close (bs ++ close :: rest) = .ok (false, rest) := by
  rw [readSeparator, skipBlanks_append hb, skipBlanks_cons hc]
  simp [hcomma]

theorem readSeparator_comma : readSeparator close (',' :: rest) = .ok (true, rest) := by
  rw [readSeparator, skipBlanks_cons rfl]
  rfl

/-- A bracket that closes. -/
structure Closes (close : Char) : Prop where
  not_blank : isBlank close = false
  not_comma : close ≠ ','
  ends : close.isDigit = false ∧ close ≠ '.' ∧ close ≠ 'e' ∧ close ≠ 'E'

theorem readElements_intercalate {chunks : List (List Char × α)} (hne : chunks ≠ [])
    (h : ∀ x ∈ chunks, Reads item x.1 x.2) {bs : List Char}
    (hb : ∀ c ∈ bs, isBlank c = true) (hc : Closes close) (rest : List Char) {n : Nat}
    (hn : chunks.length ≤ n) :
    readElements close item n ([','].intercalate (chunks.map Prod.fst) ++ (bs ++ close :: rest))
      = .ok (chunks.map Prod.snd, rest) := by
  induction chunks generalizing n with
  | nil => exact absurd rfl hne
  | cons chunk chunks ih =>
    obtain ⟨text, a⟩ := chunk
    cases n with
    | zero => simp at hn
    | succ n =>
      have htext : Reads item text a := h _ List.mem_cons_self
      cases chunks with
      | nil =>
        have hlast : EndsNumber (bs ++ close :: rest) := .blank hb (endsNumber_cons hc.ends)
        have hclose : readSeparator close (bs ++ close :: rest) = .ok (false, rest) :=
          readSeparator_close hb hc.not_blank hc.not_comma
        simp only [List.map_cons, List.map_nil, List.intercalate_singleton]
        rw [readElements, htext _ hlast]
        simp [bind, Except.bind, hclose, pure, Except.pure]
      | cons next chunks =>
        have hnext := ih (List.cons_ne_nil _ _) (fun x hx => h x (List.mem_cons_of_mem _ hx))
          (Nat.le_of_succ_le_succ hn)
        have hcomma : ∀ cs, EndsNumber (',' :: cs) := fun cs => endsNumber_cons (by decide)
        simp only [List.map_cons, List.intercalate_cons_cons, List.append_assoc,
          List.cons_append, List.nil_append] at hnext ⊢
        rw [readElements, htext _ (hcomma _)]
        simp [bind, Except.bind, readSeparator_comma, hnext, pure, Except.pure]

/-- There are no more items than characters. -/
theorem length_le_intercalate {texts : List (List Char)} (h : ∀ t ∈ texts, t ≠ []) :
    texts.length ≤ ([','].intercalate texts).length := by
  induction texts with
  | nil => simp
  | cons t texts ih =>
    have ht : 0 < t.length := List.length_pos_iff.2 (h t List.mem_cons_self)
    have ih := ih fun t ht => h t (List.mem_cons_of_mem _ ht)
    cases texts with
    | nil =>
      rw [List.intercalate_singleton]
      exact ht
    | cons next texts =>
      rw [List.intercalate_cons_cons, List.length_append, List.length_append]
      simp only [List.length_cons] at ih ht ⊢
      omega

theorem exists_of_readElements {n : Nat} {x : List α × List Char}
    (h : readElements close item n cs = .ok x) : ∃ y, item cs = .ok y := by
  cases n with
  | zero => simp [readElements] at h
  | succ n =>
    obtain ⟨y, hy, -⟩ := bind_eq_ok_iff.1 h
    exact ⟨y, hy⟩

/-- Items that are written between commas are read, up to the bracket that closes. -/
theorem readSequence_intercalate {chunks : List (List Char × α)} (hi : ReadsItems close item)
    (h : ∀ x ∈ chunks, Reads item x.1 x.2) {bs : List Char}
    (hb : ∀ c ∈ bs, isBlank c = true) (hc : Closes close) (rest : List Char) :
    readSequence close item ([','].intercalate (chunks.map Prod.fst) ++ (bs ++ close :: rest))
      = .ok (chunks.map Prod.snd, rest) := by
  by_cases hne : chunks = []
  · subst hne
    rw [List.map_nil, List.intercalate_nil, List.nil_append, readSequence, skipBlanks_append hb,
      skipBlanks_cons hc.not_blank]
    exact if_pos rfl
  · have htexts : ∀ t ∈ chunks.map Prod.fst, t ≠ [] := by
      intro t ht hnil
      obtain ⟨x, hx, rfl⟩ := List.mem_map.1 ht
      have hread := h x hx [close] (endsNumber_cons hc.ends)
      rw [hnil] at hread
      exact hi.not_close [] _ hread
    have hlength : chunks.length
        ≤ ([','].intercalate (chunks.map Prod.fst) ++ (bs ++ close :: rest)).length := by
      have hle := length_le_intercalate htexts
      rw [List.length_map] at hle
      rw [List.length_append]
      exact hle.trans (Nat.le_add_right _ _)
    have hread := readElements_intercalate hne h hb hc rest hlength
    generalize [','].intercalate (chunks.map Prod.fst) ++ (bs ++ close :: rest) = text at hread ⊢
    rw [← readElements_skipBlanks hi] at hread
    obtain ⟨y, hitem⟩ := exists_of_readElements hread
    rw [readSequence]
    split
    · next hnil =>
      rw [hnil] at hitem
      exact absurd hitem (hi.not_nil y)
    · next c tail hcons =>
      rw [hcons] at hitem hread
      have hclose : c ≠ close := fun he => hi.not_close tail y (he ▸ hitem)
      rw [if_neg hclose]
      exact hread

/-! ## Values -/

theorem readNode_skipBlanks (inner : Option (List Char → Parsed Json)) (cs : List Char) :
    readNode inner (skipBlanks cs) = readNode inner cs := by
  rw [readNode, skipBlanks_skipBlanks, readNode]

theorem closes_array : Closes ']' := ⟨rfl, by decide, by decide⟩

theorem closes_object : Closes '\x7d' := ⟨rfl, by decide, by decide⟩

/-- What begins with no other sign of a value is read as a number. -/
theorem readNode_of_not_mem {inner : Option (List Char → Parsed Json)} {c : Char}
    (hb : isBlank c = false) (h : c ∉ ['"', '[', '\x7b', 'n', 't', 'f']) (cs : List Char) :
    readNode inner (c :: cs) = readNumber (c :: cs) := by
  simp only [List.mem_cons, List.not_mem_nil, or_false, not_or] at h
  rw [readNode, skipBlanks_cons hb]
  split <;> simp_all

theorem readsItems_readNode (inner : Option (List Char → Parsed Json)) :
    ReadsItems ']' (readNode inner) where
  skip := readNode_skipBlanks inner
  not_nil x h := by simp [readNode, skipBlanks] at h
  not_close cs x h := by
    rw [readNode_of_not_mem rfl (by decide)] at h
    obtain ⟨c, tail, he, hc⟩ := exists_of_readNumber h
    obtain rfl : ']' = c := (List.cons.inj he).1
    simp at hc

theorem reads_number {inner : Option (List Char → Parsed Json)} {text : List Char} {j : Json}
    (h : Reads readNumber text j) : Reads (readNode inner) text j := by
  intro rest hr
  obtain ⟨c, tail, he, hc⟩ := exists_of_readNumber (h rest hr)
  have hblank : isBlank c = false := by
    rcases hc with rfl | hc
    · rfl
    · refine Bool.eq_false_iff.2 fun hb => ?_
      rw [(endsNumber_of_isBlank hb).1] at hc
      exact Bool.noConfusion hc
  have hother : c ∉ ['"', '[', '\x7b', 'n', 't', 'f'] := by
    rcases hc with rfl | hc
    · decide
    · intro hm
      simp only [List.mem_cons, List.not_mem_nil, or_false] at hm
      obtain rfl | rfl | rfl | rfl | rfl | rfl := hm <;> simp at hc
  rw [he, readNode_of_not_mem hblank hother, ← he, h rest hr]

theorem reads_string {inner : Option (List Char → Parsed Json)} (s : String) :
    Reads (readNode inner) (quote s) (.string s) := by
  intro rest _
  rw [quote, List.cons_append, List.append_assoc, readNode, skipBlanks_cons rfl]
  simp [readString_flatMap_escape, bind, Except.bind, pure, Except.pure]

theorem reads_null {inner : Option (List Char → Parsed Json)} :
    Reads (readNode inner) "null".toList .null := fun _ _ => rfl

theorem reads_true {inner : Option (List Char → Parsed Json)} :
    Reads (readNode inner) "true".toList (.bool true) := fun _ _ => rfl

theorem reads_false {inner : Option (List Char → Parsed Json)} :
    Reads (readNode inner) "false".toList (.bool false) := fun _ _ => rfl

theorem readsItems_readValue (depth : Nat) : ReadsItems ']' (readValue depth) := by
  cases depth <;> exact readsItems_readNode _

/-- Blanks in front do not matter. -/
theorem Reads.blank {text bs : List Char} {a : α} (h : Reads item text a)
    (hi : ReadsItems close item) (hb : ∀ c ∈ bs, isBlank c = true) :
    Reads item (bs ++ text) a := by
  intro rest hr
  rw [List.append_assoc, ← hi.skip, skipBlanks_append hb, hi.skip, h rest hr]

theorem reads_array {inner : List Char → Parsed Json} (hi : ReadsItems ']' inner)
    {chunks : List (List Char × Json)} (h : ∀ x ∈ chunks, Reads inner x.1 x.2) {bs : List Char}
    (hb : ∀ c ∈ bs, isBlank c = true) :
    Reads (readNode (some inner))
      ('[' :: ([','].intercalate (chunks.map Prod.fst) ++ (bs ++ [']'])))
      (.array (chunks.map Prod.snd)) := by
  intro rest _
  have hsequence := readSequence_intercalate hi h hb closes_array rest
  rw [List.cons_append, readNode, skipBlanks_cons rfl]
  simp only [List.append_assoc, List.singleton_append, hsequence]
  rfl

theorem readsItems_readMember (inner : List Char → Parsed Json) :
    ReadsItems '\x7d' (readMember inner) where
  skip cs := by rw [readMember, skipBlanks_skipBlanks, readMember]
  not_nil x h := by simp [readMember, skipBlanks] at h
  not_close cs x h := by
    rw [readMember, skipBlanks_cons rfl] at h
    simp at h

theorem reads_member {inner : List Char → Parsed Json} (hi : ReadsItems ']' inner) (name : String)
    {gap text : List Char} {v : Json} (hg : ∀ c ∈ gap, isBlank c = true)
    (h : Reads inner text v) :
    Reads (readMember inner) (quote name ++ ':' :: (gap ++ text)) (name, v) := by
  intro rest hr
  have hvalue := h.blank hi hg rest hr
  rw [quote, List.cons_append, List.cons_append, List.append_assoc, readMember, skipBlanks_cons rfl]
  simp only [List.append_assoc, List.cons_append, readString_flatMap_escape] at hvalue ⊢
  simp [bind, Except.bind, skipBlanks_cons, isBlank, hvalue, pure, Except.pure]

theorem reads_object {inner : List Char → Parsed Json}
    {chunks : List (List Char × (String × Json))}
    (h : ∀ x ∈ chunks, Reads (readMember inner) x.1 x.2)
    (hn : ((chunks.map Prod.snd).map Prod.fst).Nodup) {bs : List Char}
    (hb : ∀ c ∈ bs, isBlank c = true) :
    Reads (readNode (some inner))
      ('\x7b' :: ([','].intercalate (chunks.map Prod.fst) ++ (bs ++ ['\x7d'])))
      (.object (chunks.map Prod.snd)) := by
  intro rest _
  have hsequence := readSequence_intercalate (readsItems_readMember inner) h hb closes_object rest
  rw [List.cons_append, readNode, skipBlanks_cons rfl]
  simp only [List.append_assoc, List.singleton_append, hsequence, bind, Except.bind,
    Entries.ofList_eq_self hn]
  rfl

/-! ## Layouts -/

/-- What is written item by item, with a comma after each but the last. -/
theorem eq_intercalate {α : Type} {text : List α → List Char} {one : α → List Char}
    (hnil : text [] = []) (hone : ∀ a, text [a] = one a)
    (hcons : ∀ a b l, text (a :: b :: l) = one a ++ ',' :: text (b :: l)) (l : List α) :
    text l = [','].intercalate (l.map one) := by
  induction l with
  | nil => exact hnil
  | cons a l ih =>
    cases l with
    | nil => rw [hone, List.map_singleton, List.intercalate_singleton]
    | cons b l =>
      rw [hcons, ih, List.map_cons, List.map_cons, List.map_cons, List.intercalate_cons_cons,
        List.append_assoc]
      rfl

theorem compactItems_eq (items : List Json) :
    compactItems items = [','].intercalate (items.map compact) :=
  eq_intercalate rfl (fun _ => rfl) (fun _ _ _ => rfl) items

theorem compactMembers_eq (members : List (String × Json)) :
    compactMembers members
      = [','].intercalate (members.map fun m => quote m.1 ++ ':' :: compact m.2) :=
  eq_intercalate rfl (fun _ => rfl) (fun _ _ _ => by simp [compactMembers]) members

theorem prettyItems_eq (level : Nat) (items : List Json) :
    prettyItems level items
      = [','].intercalate (items.map fun v => newLine level ++ pretty level v) :=
  eq_intercalate rfl (fun _ => rfl) (fun _ _ _ => rfl) items

theorem prettyMembers_eq (level : Nat) (members : List (String × Json)) :
    prettyMembers level members = [','].intercalate
      (members.map fun m => newLine level ++ (quote m.1 ++ ':' :: ([' '] ++ pretty level m.2))) :=
  eq_intercalate rfl (fun _ => by simp [prettyMembers]) (fun _ _ _ => by simp [prettyMembers])
    members

/-- What stands in front of an item or a member. -/
def lead : Layout → Nat → List Char
  | .compact, _ => []
  | .pretty, level => newLine level

/-- What stands between the colon and the value of a member. -/
def gap : Layout → List Char
  | .compact => []
  | .pretty => [' ']

/-- The text of a value at a nesting level. -/
def text : Layout → Nat → Json → List Char
  | .compact, _, v => compact v
  | .pretty, level, v => pretty level v

theorem isBlank_lead (layout : Layout) (level : Nat) :
    ∀ c ∈ lead layout level, isBlank c = true := by
  cases layout with
  | pretty => exact isBlank_newLine level
  | compact => exact List.forall_mem_nil _

theorem isBlank_gap (layout : Layout) : ∀ c ∈ gap layout, isBlank c = true := by
  cases layout with
  | pretty => exact fun c hc => List.mem_singleton.1 hc ▸ rfl
  | compact => exact List.forall_mem_nil _

theorem exists_text_array (layout : Layout) (level : Nat) (items : List Json) :
    ∃ bs : List Char, (∀ c ∈ bs, isBlank c = true) ∧ text layout level (.array items)
      = '[' :: ([','].intercalate
        (items.map fun v => lead layout (level + 1) ++ text layout (level + 1) v)
        ++ (bs ++ [']'])) := by
  cases layout with
  | compact => exact ⟨[], List.forall_mem_nil _, by simp [text, compact, compactItems_eq, lead]⟩
  | pretty =>
    cases items with
    | nil => exact ⟨[], List.forall_mem_nil _, by simp [text, pretty]⟩
    | cons v items =>
      exact ⟨newLine level, isBlank_newLine level, by simp [text, pretty, prettyItems_eq, lead]⟩

theorem exists_text_object (layout : Layout) (level : Nat) (members : List (String × Json)) :
    ∃ bs : List Char, (∀ c ∈ bs, isBlank c = true) ∧ text layout level (.object members)
      = '\x7b' :: ([','].intercalate
        (members.map fun m => lead layout (level + 1)
          ++ (quote m.1 ++ ':' :: (gap layout ++ text layout (level + 1) m.2)))
        ++ (bs ++ ['\x7d'])) := by
  cases layout with
  | compact =>
    exact ⟨[], List.forall_mem_nil _, by simp [text, compact, compactMembers_eq, lead, gap]⟩
  | pretty =>
    cases members with
    | nil => exact ⟨[], List.forall_mem_nil _, by simp [text, pretty]⟩
    | cons m members =>
      exact ⟨newLine level, isBlank_newLine level,
        by simp [text, pretty, prettyMembers_eq, lead, gap]⟩

/-! ## Documents -/

mutual

/-- How deeply arrays and objects are nested. -/
def depth : Json → Nat
  | .array items => depthOfItems items + 1
  | .object members => depthOfMembers members + 1
  | _ => 0

def depthOfItems : List Json → Nat
  | [] => 0
  | v :: items => max (depth v) (depthOfItems items)

def depthOfMembers : List (String × Json) → Nat
  | [] => 0
  | (_, v) :: members => max (depth v) (depthOfMembers members)

end

theorem depth_le_of_mem_items {v : Json} {items : List Json} (h : v ∈ items) :
    v.depth ≤ depthOfItems items := by
  induction items with
  | nil => exact absurd h List.not_mem_nil
  | cons w items ih =>
    rw [depthOfItems]
    rcases List.mem_cons.1 h with rfl | h
    · exact Nat.le_max_left _ _
    · exact (ih h).trans (Nat.le_max_right _ _)

theorem depth_le_of_mem_members {m : String × Json} {members : List (String × Json)}
    (h : m ∈ members) : m.2.depth ≤ depthOfMembers members := by
  induction members with
  | nil => exact absurd h List.not_mem_nil
  | cons n members ih =>
    rw [depthOfMembers]
    rcases List.mem_cons.1 h with rfl | h
    · exact Nat.le_max_left _ _
    · exact (ih h).trans (Nat.le_max_right _ _)

/-- A document whose whole numbers have at most 64 bits, whose other numbers come back from their
texts and in which the members of an object have different names. -/
inductive Legible : Json → Prop
  | null : Legible .null
  | bool (b : Bool) : Legible (.bool b)
  | integer {n : Int} (hlow : -(Nat.pow 2 63) ≤ n) (hhigh : n < UInt64.size) : Legible (.integer n)
  | float {x : Float} (hx : ReadsBack x) : Legible (.float x)
  | string (s : String) : Legible (.string s)
  | array {items : List Json} (h : ∀ v ∈ items, Legible v) : Legible (.array items)
  | object {members : List (String × Json)} (hn : (members.map Prod.fst).Nodup)
      (h : ∀ m ∈ members, Legible m.2) : Legible (.object members)

/-- A document that is not nested more deeply than the reader goes comes back. -/
theorem reads_text {v : Json} (h : v.Legible) (layout : Layout) {depth : Nat}
    (hd : v.depth ≤ depth) (level : Nat) :
    Reads (readValue depth) (text layout level v) v := by
  induction h generalizing depth level with
  | null => cases layout <;> cases depth <;> exact reads_null
  | bool b =>
    cases b with
    | true => cases layout <;> cases depth <;> exact reads_true
    | false => cases layout <;> cases depth <;> exact reads_false
  | @integer n hlow hhigh =>
    have hread : Reads readNumber (integerText n) (.integer n) :=
      fun _ hr => readNumber_integerText hlow hhigh hr
    cases layout <;> cases depth <;> exact reads_number hread
  | @float x hx =>
    have hread : Reads readNumber (Number.floatText x).toList (.float x) :=
      fun _ hr => hx.readNumber hr
    cases layout <;> cases depth <;> exact reads_number hread
  | string s => cases layout <;> cases depth <;> exact reads_string s
  | @array items _ ih =>
    obtain _ | depth := depth
    · simp [Json.depth] at hd
    · rw [Json.depth, Nat.add_le_add_iff_right] at hd
      obtain ⟨bs, hb, htext⟩ := exists_text_array layout level items
      have hi := readsItems_readValue depth
      let chunks := items.map fun v => (lead layout (level + 1) ++ text layout (level + 1) v, v)
      have hitems : ∀ x ∈ chunks, Reads (readValue depth) x.1 x.2 := by
        intro x hx
        obtain ⟨v, hv, rfl⟩ := List.mem_map.1 hx
        have hdepth := (depth_le_of_mem_items hv).trans hd
        exact (ih v hv hdepth (level + 1)).blank hi (isBlank_lead layout _)
      have hread := reads_array hi hitems hb
      rw [htext, readValue]
      simpa [chunks, Function.comp_def] using hread
  | @object members hn _ ih =>
    obtain _ | depth := depth
    · simp [Json.depth] at hd
    · rw [Json.depth, Nat.add_le_add_iff_right] at hd
      obtain ⟨bs, hb, htext⟩ := exists_text_object layout level members
      have hi := readsItems_readValue depth
      let chunks := members.map fun m => (lead layout (level + 1)
        ++ (quote m.1 ++ ':' :: (gap layout ++ text layout (level + 1) m.2)), m)
      have hmembers : ∀ x ∈ chunks, Reads (readMember (readValue depth)) x.1 x.2 := by
        intro x hx
        obtain ⟨m, hm, rfl⟩ := List.mem_map.1 hx
        have hdepth := (depth_le_of_mem_members hm).trans hd
        exact (reads_member hi m.1 (isBlank_gap layout) (ih m hm hdepth (level + 1))).blank
          (readsItems_readMember _) (isBlank_lead layout _)
      have hnames : chunks.map Prod.snd = members := by simp [chunks, Function.comp_def]
      have hread := reads_object hmembers (hnames.symm ▸ hn) hb
      rw [htext, readValue]
      simpa [chunks, Function.comp_def] using hread

/-- A document comes back from its text in either layout. -/
theorem parse_render (layout : Layout) {v : Json} (h : v.Legible) (hd : v.depth ≤ maxDepth) :
    parse (v.render layout) = .ok v := by
  have htext : (v.render layout).toList = text layout 0 v := by
    cases layout <;> exact String.toList_ofList
  have hread := reads_text h layout hd 0 [] endsNumber_nil
  rw [List.append_nil] at hread
  rw [parse, parseTo, htext, hread]
  rfl

end SchemaLang.Json
