/-!
# Blanks, trimming and splitting

The character classes that separate words and lines, and the cuts made at them. Two classes of
blank are told apart: the ASCII blanks, which end a token, and the wider set of characters with
the `White_Space` property, which trimming removes.
-/

namespace TransportDeck.Text

/-- The ASCII characters that separate tokens. -/
def isAsciiBlank (c : Char) : Bool :=
  c == ' ' || c == '\t' || c == '\n' || c == '\r' || c == '\x0c'

/-- The characters with the `White_Space` property. -/
def isBlank (c : Char) : Bool :=
  let n := c.toNat
  (9 ≤ n && n ≤ 13) || n == 0x20 || n == 0x85 || n == 0xA0 || n == 0x1680 ||
    (0x2000 ≤ n && n ≤ 0x200A) || n == 0x2028 || n == 0x2029 || n == 0x202F || n == 0x205F ||
    n == 0x3000

theorem isBlank_of_isAsciiBlank {c : Char} (h : isAsciiBlank c = true) : isBlank c = true := by
  simp only [isAsciiBlank, Bool.or_eq_true, beq_iff_eq] at h
  rcases h with (((h | h) | h) | h) | h <;> subst h <;> decide

def isAsciiDigit (c : Char) : Bool := c.isDigit

def isAsciiLetter (c : Char) : Bool := c.isAlpha

/-! ## Trimming -/

def trimStart (cs : List Char) : List Char := cs.dropWhile isBlank

def trimEnd (cs : List Char) : List Char := (cs.reverse.dropWhile isBlank).reverse

def trim (cs : List Char) : List Char := trimEnd (trimStart cs)

def allBlank (cs : List Char) : Bool := cs.all isBlank

def trimEndString (s : String) : String := String.ofList (trimEnd s.toList)

def trimString (s : String) : String := String.ofList (trim s.toList)

/-! ## Splitting -/

/-- The pieces between the characters that satisfy `p`, empty ones included. -/
def splitWhere (p : Char → Bool) : List Char → List (List Char)
  | [] => [[]]
  | c :: cs =>
    if p c then [] :: splitWhere p cs
    else match splitWhere p cs with
      | [] => [[c]]
      | w :: ws => (c :: w) :: ws

theorem splitWhere_ne_nil (p : Char → Bool) (cs : List Char) : splitWhere p cs ≠ [] := by
  cases cs with
  | nil => simp [splitWhere]
  | cons c cs =>
    rw [splitWhere]
    split
    · simp
    · split <;> simp

/-- The nonempty pieces between the characters that satisfy `p`. -/
def wordsWhere (p : Char → Bool) (cs : List Char) : List (List Char) :=
  (splitWhere p cs).filter (!·.isEmpty)

def words (cs : List Char) : List (List Char) := wordsWhere isBlank cs

def splitString (c : Char) (s : String) : List String :=
  (splitWhere (· == c) s.toList).map String.ofList

/-- A carriage return that stands right before a line feed belongs to the line end. -/
def dropReturn (cs : List Char) : List Char :=
  match cs.reverse with
  | '\r' :: r => r.reverse
  | _ => cs

/-- The last piece is a line only if it is not empty, and keeps a carriage return at its end. -/
def closeLines : List (List Char) → List (List Char)
  | [] => []
  | [last] => if last.isEmpty then [] else [last]
  | line :: rest => dropReturn line :: closeLines rest

/-- The lines of a text, without their line ends. -/
def lines (cs : List Char) : List (List Char) := closeLines (splitWhere (· == '\n') cs)

/-! ## Letter case -/

def lower (cs : List Char) : List Char := cs.map Char.toLower

def lowerString (s : String) : String := String.ofList (lower s.toList)

def upperString (s : String) : String := String.ofList (s.toList.map Char.toUpper)

/-- Equality up to the case of ASCII letters. -/
def sameWord (a b : String) : Bool := lower a.toList == lower b.toList

/-! ## Cuts -/

/-- The text before `ending`, if the text ends so. -/
def dropEnding? (ending cs : List Char) : Option (List Char) :=
  if ending.isSuffixOf cs then some (cs.take (cs.length - ending.length)) else none

/-- The part before the first `c` and, if there is one, the part after it. -/
def cutAt (c : Char) (cs : List Char) : List Char × Option (List Char) :=
  match cs.dropWhile (· != c) with
  | [] => (cs, none)
  | _ :: rest => (cs.takeWhile (· != c), some rest)

def byteSize (cs : List Char) : Nat := cs.foldr (fun c n => c.utf8Size + n) 0

/-- Blanks are added on the right until the text has `width` characters. -/
def padRight (width : Nat) (s : String) : String :=
  String.ofList (s.toList ++ List.replicate (width - s.length) ' ')

def padLeft (width : Nat) (fill : Char) (s : String) : String :=
  String.ofList (List.replicate (width - s.length) fill ++ s.toList)

def spaces (n : Nat) : String := String.ofList (List.replicate n ' ')

end TransportDeck.Text
