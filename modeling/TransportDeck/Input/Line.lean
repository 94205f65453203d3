import TransportDeck.Limits
import TransportDeck.Text.Blank

/-!
# Lines

What the first columns of a line say: whether it is a comment, and whether it goes on with the
record of the lines before it.
-/

namespace TransportDeck.Line

open Text

/-- Whether a word ends before this text. -/
def endsWord : List Char → Bool
  | c :: _ => isBlank c
  | [] => true

/-- A lone `c` in one of the first columns makes the whole line a comment. -/
def isComment (line : String) : Bool :=
  let cs := line.toList
  byteSize (cs.takeWhile isBlank) < Limits.continuationColumns &&
    match cs.dropWhile isBlank with
    | c :: rest => (c == 'c' || c == 'C') && endsWord rest
    | [] => false

def isBlank (line : String) : Bool := allBlank line.toList

/-- The columns in which a record starts. -/
def firstColumns (line : String) : List Char := line.toList.take Limits.continuationColumns

/-- What stands before an inline comment. -/
def code (line : String) : List Char := line.toList.takeWhile (· != '$')

/-! ## Normal form -/

/-- Tabs become spaces up to the next tab stop; `column` characters stand before the text. -/
def expandTabsFrom (column : Nat) : List Char → List Char
  | [] => []
  | c :: cs =>
    if c == '\t' then
      let fill := Limits.tabWidth - column % Limits.tabWidth
      List.replicate fill ' ' ++ expandTabsFrom (column + fill) cs
    else c :: expandTabsFrom (column + 1) cs

def expandTabs (line : List Char) : List Char := expandTabsFrom 0 line

def isAscii (c : Char) : Bool := c.toNat < 128

/-- Each character that is not ASCII becomes a space. -/
def blankOut (line : List Char) : List Char := line.map fun c => if isAscii c then c else ' '

end TransportDeck.Line
