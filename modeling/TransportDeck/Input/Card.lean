import TransportDeck.Input.Line

/-!
# Cards

A deck consists of three blocks of cards. A card is one record as it stands in a file: the line
that starts it and the lines that continue it.
-/

namespace TransportDeck

open Text

inductive Block where
  | cell
  | surface
  | data
deriving Repr, DecidableEq

namespace Block

def name : Block → String
  | cell => "cell"
  | surface => "surface"
  | data => "data"

/-- How many blank lines stand between the title and the block. -/
def index : Block → Nat
  | cell => 0
  | surface => 1
  | data => 2

/-- The block behind a number of blank lines. -/
def ofIndex : Nat → Block
  | 0 => cell
  | 1 => surface
  | _ => data

end Block

structure Card where
  block : Block
  lines : List String
  path : String
  /-- The number of the first line in its file. -/
  firstLine : Nat
  /-- How many files include the one that the card stands in. -/
  depth : Nat
deriving Repr, DecidableEq

namespace Card

def text (c : Card) : String := "\n".intercalate c.lines

def codeLines (c : Card) : List String := c.lines.filter (!Line.isComment ·)

/-- The first word that stands in no comment line. -/
def firstWord? (c : Card) : Option String :=
  (c.codeLines.head?.bind fun line => (words line.toList).head?).map String.ofList

/-- Whether the card asks for another file. -/
def isRead (c : Card) : Bool :=
  match c.firstWord? with
  | some word => sameWord word "read"
  | none => false

def separates (c : Char) : Bool := isBlank c || c == '=' || c == '&'

/-- The words of the card without its comments and the marks between them. -/
def codeWords (c : Card) : List String :=
  c.codeLines.flatMap fun line => (wordsWhere separates (Line.code line)).map String.ofList

/-- The word behind the word `file`. -/
def fileIn? : List String → Option String
  | [] => none
  | word :: words => if sameWord word "file" then words.head? else fileIn? words

/-- The file that a card asks for. -/
def target? (c : Card) : Option String := if c.isRead then fileIn? c.codeWords else none

end Card

end TransportDeck
