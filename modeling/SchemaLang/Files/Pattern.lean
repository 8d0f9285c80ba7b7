/-!
# Wildcard patterns

`?` stands for one character, `*` for any characters, `[...]` for one of a set and `[!...]` for one
outside it; `**`, as a component of its own, stands for directories of any depth.

* `escape`: writes a text as the pattern of itself.
-/

namespace SchemaLang.Files

/-- The characters from one to another. -/
structure CharRange where
  first : Char
  last : Char
  deriving DecidableEq, Repr

def CharRange.contains (r : CharRange) (c : Char) : Bool := r.first ≤ c && c ≤ r.last

inductive Token
  | char (c : Char)
  | anyChar
  | anySequence
  | anyDirectories
  | within (set : List CharRange)
  | outside (set : List CharRange)
  deriving DecidableEq, Repr

abbrev Pattern := List Token

/-- What is wrong with a pattern, and at which character. -/
inductive PatternFault
  | wildcards (position : Nat)
  | directories (position : Nat)
  | range (position : Nat)
  deriving DecidableEq, Repr

def PatternFault.position : PatternFault → Nat
  | .wildcards n => n
  | .directories n => n
  | .range n => n

def PatternFault.reason : PatternFault → String
  | .wildcards _ => "wildcards are either regular `*` or recursive `**`"
  | .directories _ => "recursive wildcards must form a single path component"
  | .range _ => "invalid range pattern"

def PatternFault.message (f : PatternFault) : String :=
  "Pattern syntax error near position " ++ toString f.position ++ ": " ++ f.reason

namespace Pattern

/-- The ranges and single characters of a set. -/
def ranges : List Char → List CharRange
  | first :: '-' :: last :: cs => ⟨first, last⟩ :: ranges cs
  | c :: cs => ⟨c, c⟩ :: ranges cs
  | [] => []

/-- The text up to a closing bracket, which is not the first character, and what follows it. -/
def bracketed? : List Char → Option (List Char × List Char)
  | [] => none
  | c :: cs =>
    let inner := cs.takeWhile (· ≠ ']')
    match cs.dropWhile (· ≠ ']') with
    | [] => none
    | _ :: rest => some (c :: inner, rest)

/-- A set, whose opening bracket has been read, and what follows it. -/
def set? : List Char → Option (Token × List Char)
  | '!' :: cs => (bracketed? cs).map fun (inner, rest) => (.outside (ranges inner), rest)
  | cs => (bracketed? cs).map fun (inner, rest) => (.within (ranges inner), rest)

/-- The tokens of a pattern from the character at `position` on; `start` says whether a component
starts there.  Every round takes a character, so `count` of them suffice for as many. -/
def tokensFrom : Nat → Nat → Bool → List Char → Except PatternFault Pattern
  | 0, _, _, _ => .ok []
  | _ + 1, _, _, [] => .ok []
  | count + 1, position, start, c :: cs =>
    if c = '?' then (tokensFrom count (position + 1) false cs).map (.anyChar :: ·)
    else if c = '*' then
      let stars := 1 + (cs.takeWhile (· = '*')).length
      let rest := cs.dropWhile (· = '*')
      if stars = 1 then (tokensFrom count (position + 1) false rest).map (.anySequence :: ·)
      else if 2 < stars then .error (.wildcards (position + 2))
      else if !start then .error (.directories (position - 1))
      else
        match rest with
        | [] => .ok [.anyDirectories]
        | '/' :: rest => (tokensFrom count (position + 3) true rest).map (.anyDirectories :: ·)
        | _ => .error (.directories (position + 2))
    else if c = '[' then
      match set? cs with
      | none => .error (.range position)
      | some (token, rest) =>
        (tokensFrom count (position + 1 + (cs.length - rest.length)) false rest).map (token :: ·)
    else (tokensFrom count (position + 1) (c = '/') cs).map (.char c :: ·)

def parse (text : List Char) : Except PatternFault Pattern := tokensFrom text.length 0 true text

/-- The text of a pattern without wildcards. -/
def literal? (p : Pattern) : Option (List Char) :=
  p.mapM fun
    | .char c => some c
    | _ => none

def isRecursive (p : Pattern) : Bool := p.contains .anyDirectories

/-- The ends of a text, itself among them. -/
def suffixes : List Char → List (List Char)
  | [] => [[]]
  | c :: cs => (c :: cs) :: suffixes cs

/-- Whether a name, which is one component, is of the form of a pattern. -/
def accepts : Pattern → List Char → Bool
  | [], cs => cs.isEmpty
  | .anySequence :: p, cs => (suffixes cs).any (accepts p)
  | .anyDirectories :: p, cs => (suffixes cs).any (accepts p)
  | _ :: _, [] => false
  | .char d :: p, c :: cs => c == d && accepts p cs
  | .anyChar :: p, _ :: cs => accepts p cs
  | .within set :: p, c :: cs => (set.any fun r => r.contains c) && accepts p cs
  | .outside set :: p, c :: cs => !(set.any fun r => r.contains c) && accepts p cs

/-- Writes a text as the pattern that only it has the form of. -/
def escape (text : List Char) : List Char :=
  text.flatMap fun c =>
    if c = '?' ∨ c = '*' ∨ c = '[' ∨ c = ']' then ['[', c, ']'] else [c]

end Pattern

end SchemaLang.Files
