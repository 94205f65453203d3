import TransportDeck.Decimal.Read
import TransportDeck.Text.Blank

/-!
# Format versions

A version of the deck format fixes how many columns of a line are read.
-/

namespace TransportDeck

open Text

structure Version where
  major : Nat
  minor : Nat
  patch : Nat
deriving Repr, DecidableEq

namespace Version

def standard : Version := ⟨6, 3, 0⟩

def text (v : Version) : String :=
  toString v.major ++ "." ++ toString v.minor ++ "." ++ toString v.patch

def compare (a b : Version) : Ordering :=
  (Ord.compare a.major b.major).then <|
    (Ord.compare a.minor b.minor).then (Ord.compare a.patch b.patch)

/-- A part of a version: digits, perhaps behind a plus sign, below 2³². -/
def readPart? (cs : List Char) : Option Nat :=
  let digits := match cs with
    | '+' :: rest => rest
    | _ => cs
  if digits.isEmpty || !digits.all Char.isDigit then none
  else
    let n := Decimal.natOfDigits digits
    if n < 4294967296 then some n else none

/-- Reads a text such as `6.2.0`. -/
def read? (text : String) : Option Version :=
  match splitWhere (· == '.') (trim text.toList) with
  | [a, b, c] => do return ⟨← readPart? a, ← readPart? b, ← readPart? c⟩
  | _ => none

/-- The columns of a line in the versions that are known. -/
def widths : List (Version × Nat) :=
  [(⟨5, 1, 60⟩, 80), (⟨6, 1, 0⟩, 80), (⟨6, 2, 0⟩, 128), (⟨6, 3, 0⟩, 128)]

/-- The columns of a line. A version after the standard one has its width. -/
def width? (v : Version) : Option Nat :=
  widths.lookup (if v.compare standard == .lt then v else standard)

end Version

end TransportDeck
