/-!
# Positions and spans

A position counts bytes from 0, lines from 1 and columns from 1; a line feed starts a new line.
-/

namespace TransportDeck

structure Position where
  offset : Nat
  line : Nat
  column : Nat
deriving Repr, DecidableEq, Inhabited

namespace Position

/-- The start of a text. -/
def start : Position := ⟨0, 1, 1⟩

def step (p : Position) (c : Char) : Position :=
  if c = '\n' then ⟨p.offset + 1, p.line + 1, 1⟩
  else ⟨p.offset + c.utf8Size, p.line, p.column + 1⟩

/-- The position behind the text `cs` that starts at `p`. -/
def advance (p : Position) (cs : List Char) : Position := cs.foldl step p

@[simp] theorem advance_nil (p : Position) : p.advance [] = p := rfl

@[simp] theorem advance_cons (p : Position) (c : Char) (cs : List Char) :
    p.advance (c :: cs) = (p.step c).advance cs := rfl

theorem advance_append (p : Position) (cs ds : List Char) :
    p.advance (cs ++ ds) = (p.advance cs).advance ds := by simp [advance]

def text (p : Position) : String := toString p.line ++ ":" ++ toString p.column

end Position

/-- The number that line `n` of a text has in a file, in which the text starts at line `first`.
Numbers of lines are words of 32 bits. A sum past the last word starts again from 0, and stops the
work where sums are checked. -/
def lineInFile (first n : Nat) : Nat := (UInt32.ofNat n + UInt32.ofNat first - 1).toNat

/-- The text from `start` up to `stop`. -/
structure Span where
  start : Position
  stop : Position
deriving Repr, DecidableEq, Inhabited

namespace Span

/-- The empty span at a position. -/
def point (p : Position) : Span := ⟨p, p⟩

/-- The span of a text that starts at a position. -/
def ofText (p : Position) (cs : List Char) : Span := ⟨p, p.advance cs⟩

def size (s : Span) : Nat := s.stop.offset - s.start.offset

def isEmpty (s : Span) : Bool := s.start.offset == s.stop.offset

/-- The smallest span that covers both. -/
def merge (a b : Span) : Span where
  start := if a.start.offset < b.start.offset then a.start else b.start
  stop := if a.stop.offset > b.stop.offset then a.stop else b.stop

/-- The span as it lies in a file, where the text starts at line `first`. -/
def fromLine (first : Nat) (s : Span) : Span where
  start := { s.start with line := (UInt32.ofNat s.start.line + UInt32.ofNat (first - 1)).toNat }
  stop := { s.stop with line := (UInt32.ofNat s.stop.line + UInt32.ofNat (first - 1)).toNat }

/-- The characters from byte `n` on, if a character starts there. -/
def dropBytes? (n : Nat) : List Char → Option (List Char)
  | [] => if n = 0 then some [] else none
  | c :: cs => if n = 0 then some (c :: cs)
    else if c.utf8Size ≤ n then dropBytes? (n - c.utf8Size) cs else none

/-- The characters before byte `n`, if a character ends there. -/
def takeBytes? (n : Nat) : List Char → Option (List Char)
  | [] => if n = 0 then some [] else none
  | c :: cs => if n = 0 then some []
    else if c.utf8Size ≤ n then (takeBytes? (n - c.utf8Size) cs).map (c :: ·) else none

/-- The part of a text between two bytes; empty if they do not bound whole characters of it. -/
def bytesOf (first stop : Nat) (source : String) : String :=
  if first ≤ stop then
    match (dropBytes? first source.toList).bind (takeBytes? (stop - first)) with
    | some cs => String.ofList cs
    | none => ""
  else ""

def slice (s : Span) (source : String) : String := bytesOf s.start.offset s.stop.offset source

def text (s : Span) : String :=
  if s.start.line == s.stop.line then
    toString s.start.line ++ ":" ++ toString s.start.column ++ "-" ++ toString s.stop.column
  else s.start.text ++ "-" ++ s.stop.text

end Span

end TransportDeck
