import SchemaLang.Json.Number
import SchemaLang.Text.Hex

/-!
# Reading JSON

The grammar of RFC 8259, over lists of characters.  A repeated member name keeps its first place
and its last value.  Nesting is bounded, and the bound is what the recursion runs on.
-/

namespace SchemaLang.Json

def isBlank (c : Char) : Bool := c == ' ' || c == '\t' || c == '\n' || c == '\r'

def skipBlanks (cs : List Char) : List Char := cs.dropWhile isBlank

/-- The number that four hexadecimal digits write. -/
def unit? (a b c d : Char) : Option Nat := do
  let a ← Text.hexValue? a.toNat
  let b ← Text.hexValue? b.toNat
  let c ← Text.hexValue? c.toNat
  let d ← Text.hexValue? d.toNat
  pure (((a * 16 + b) * 16 + c) * 16 + d)

def isHighSurrogate (n : Nat) : Bool := 0xD800 ≤ n && n ≤ 0xDBFF

def isLowSurrogate (n : Nat) : Bool := 0xDC00 ≤ n && n ≤ 0xDFFF

def joinSurrogates (high low : Nat) : Char :=
  Char.ofNat (0x10000 + (high - 0xD800) * 0x400 + (low - 0xDC00))

/-- The character that a letter after a backslash stands for. -/
def unescape? : Char → Option Char
  | '"' => some '"'
  | '\\' => some '\\'
  | '/' => some '/'
  | 'b' => some '\x08'
  | 'f' => some '\x0c'
  | 'n' => some '\n'
  | 'r' => some '\r'
  | 't' => some '\t'
  | _ => none

def prepend (c : Char) : Parsed (List Char) → Parsed (List Char)
  | .ok (cs, rest) => .ok (c :: cs, rest)
  | .error fault => .error fault

/-- The rest of a string whose opening quote has been read. -/
def readString : List Char → Parsed (List Char)
  | [] => .error .endOfText
  | '"' :: rest => .ok ([], rest)
  | '\\' :: 'u' :: a :: b :: c :: d :: rest =>
    match unit? a b c d with
    | none => .error .malformed
    | some n =>
      if isHighSurrogate n then
        match rest with
        | '\\' :: 'u' :: a :: b :: c :: d :: rest =>
          match unit? a b c d with
          | none => .error .malformed
          | some low =>
            if isLowSurrogate low then prepend (joinSurrogates n low) (readString rest)
            else .error .malformed
        | _ => .error .malformed
      else if isLowSurrogate n then .error .malformed
      else prepend (Char.ofNat n) (readString rest)
  | '\\' :: c :: rest =>
    match unescape? c with
    | none => .error .malformed
    | some c => prepend c (readString rest)
  | c :: rest =>
    if c = '\\' ∨ c.toNat < 0x20 then .error .malformed
    else prepend c (readString rest)

/-- What must follow an item or a member: a comma or the closing bracket. -/
def readSeparator (close : Char) (cs : List Char) : Parsed Bool :=
  match skipBlanks cs with
  | [] => .error .endOfText
  | c :: rest =>
    if c = ',' then .ok (true, rest)
    else if c = close then .ok (false, rest)
    else .error .malformed

/-- One or more elements up to the closing bracket; each takes at least one character. -/
def readElements {α : Type} (close : Char) (element : List Char → Parsed α) :
    Nat → List Char → Except Fault (List α × List Char)
  | 0, _ => .error .endOfText
  | n + 1, cs => do
    let (x, rest) ← element cs
    let (more, rest) ← readSeparator close rest
    if more then
      let (xs, rest) ← readElements close element n rest
      pure (x :: xs, rest)
    else pure ([x], rest)

def readSequence {α : Type} (close : Char) (element : List Char → Parsed α) (cs : List Char) :
    Parsed (List α) :=
  match skipBlanks cs with
  | [] => .error .endOfText
  | c :: rest =>
    if c = close then .ok ([], rest) else readElements close element cs.length (c :: rest)

def readMember (value : List Char → Parsed Json) (cs : List Char) :
    Except Fault ((String × Json) × List Char) :=
  match skipBlanks cs with
  | [] => .error .endOfText
  | '"' :: rest => do
    let (name, rest) ← readString rest
    match skipBlanks rest with
    | [] => .error .endOfText
    | ':' :: rest =>
      let (v, rest) ← value rest
      pure ((String.ofList name, v), rest)
    | _ => .error .malformed
  | _ => .error .malformed

def readWord (word : List Char) (v : Json) (cs : List Char) : Parsed Json :=
  if word.isPrefixOf cs then .ok (v, cs.drop word.length)
  else .error (if cs.isPrefixOf word then .endOfText else .malformed)

/-- A value; `inner` reads what stands in arrays and objects, if they may be entered. -/
def readNode (inner : Option (List Char → Parsed Json)) (cs : List Char) :
    Except Fault (Json × List Char) :=
  match skipBlanks cs with
  | [] => .error .endOfText
  | '"' :: rest => do
    let (s, rest) ← readString rest
    pure (.string (String.ofList s), rest)
  | '[' :: rest =>
    match inner with
    | none => .error .tooDeep
    | some inner => do
      let (items, rest) ← readSequence ']' inner rest
      pure (.array items, rest)
  | '\x7b' :: rest =>
    match inner with
    | none => .error .tooDeep
    | some inner => do
      let (members, rest) ← readSequence '\x7d' (readMember inner) rest
      pure (.object (Entries.ofList members), rest)
  | 'n' :: rest => readWord "null".toList .null ('n' :: rest)
  | 't' :: rest => readWord "true".toList (.bool true) ('t' :: rest)
  | 'f' :: rest => readWord "false".toList (.bool false) ('f' :: rest)
  | cs => readNumber cs

/-- A value in which arrays and objects are nested at most `depth` deep. -/
def readValue : Nat → List Char → Parsed Json
  | 0 => readNode none
  | depth + 1 => readNode (some (readValue depth))

def maxDepth : Nat := 127

def parseTo (depth : Nat) (text : String) : Except Fault Json := do
  let (v, rest) ← readValue depth text.toList
  if skipBlanks rest = [] then pure v else .error .malformed

def parse (text : String) : Except Fault Json := parseTo maxDepth text

end SchemaLang.Json
