/-!
# White space and pieces of a text

`isSpace` is the Unicode property White_Space.  Texts are trimmed by it, cut at a
separator by `splitAt`, and cut into lines by `lines`.

* `splitAt_ne_nil`: cutting a text leaves at least one piece.
-/

namespace SchemaLang.Text

def isSpace (c : Char) : Bool :=
  let n := c.toNat
  (0x09 ≤ n && n ≤ 0x0D) || n == 0x20 || n == 0x85 || n == 0xA0 || n == 0x1680
    || (0x2000 ≤ n && n ≤ 0x200A) || n == 0x2028 || n == 0x2029 || n == 0x202F
    || n == 0x205F || n == 0x3000

def trimStart (cs : List Char) : List Char := cs.dropWhile isSpace

def trimEnd (cs : List Char) : List Char := (cs.reverse.dropWhile isSpace).reverse

def trim (cs : List Char) : List Char := trimEnd (trimStart cs)

/-- The pieces of a text between the occurrences of a separator. -/
def splitAt (sep : Char) : List Char → List (List Char)
  | [] => [[]]
  | c :: cs =>
    if c = sep then [] :: splitAt sep cs
    else
      match splitAt sep cs with
      | [] => [[c]]
      | piece :: pieces => (c :: piece) :: pieces

/-- A line break may be written with a carriage return before the line feed. -/
def chopReturn : List Char → List Char
  | [] => []
  | ['\r'] => []
  | c :: cs => c :: chopReturn cs

/-- Every piece but the last was ended by a line feed; an empty last piece is no line. -/
def linesOfPieces : List (List Char) → List (List Char)
  | [] => []
  | [last] => if last.isEmpty then [] else [last]
  | piece :: pieces => chopReturn piece :: linesOfPieces pieces

def lines (cs : List Char) : List (List Char) := linesOfPieces (splitAt '\n' cs)

/-- The first `n` characters of a text. -/
def truncate (n : Nat) (s : String) : String := String.ofList (s.toList.take n)

/-! ## Pieces -/

theorem splitAt_ne_nil (sep : Char) (cs : List Char) : splitAt sep cs ≠ [] := by
  cases cs with
  | nil => simp [splitAt]
  | cons c cs =>
    rw [splitAt]
    split
    · simp
    · split <;> simp

end SchemaLang.Text
