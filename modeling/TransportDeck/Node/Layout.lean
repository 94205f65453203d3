import TransportDeck.Text.Blank
import TransportDeck.Token.Basic

/-!
# Layout

What stands between the values of a record: blanks, line feeds, comments and punctuation. A layout
keeps its text exactly, and keeps it in a normal form: no space is empty, none holds a line feed,
and no two of them are neighbours.
-/

namespace TransportDeck

open Text

/-- A comment as written, with its mark. -/
structure Comment where
  text : String
deriving Repr, DecidableEq

namespace Comment

def isInline (c : Comment) : Bool := c.text.toList.head? == some '$'

/-- What stands behind the mark, without the blanks around it. -/
def contents (c : Comment) : String :=
  match c.text.toList with
  | m :: rest => if m.utf8Size = 1 then String.ofList (trim rest) else ""
  | [] => ""

end Comment

inductive Piece where
  /-- Blanks other than line feeds. -/
  | space (text : String)
  | newline
  | comment (c : Comment)
  /-- Punctuation that is kept as layout, such as `&`, `=` or `(`. -/
  | literal (text : String)
deriving Repr, DecidableEq

namespace Piece

def text : Piece → String
  | space t => t
  | newline => "\n"
  | comment c => c.text
  | literal t => t

def isSpace : Piece → Bool
  | space _ => true
  | _ => false

def isNewline : Piece → Bool
  | newline => true
  | _ => false

def isBlank : Piece → Bool
  | space _ | newline => true
  | _ => false

def comment? : Piece → Option Comment
  | comment c => some c
  | _ => none

end Piece

structure Layout where
  pieces : List Piece
deriving Repr, DecidableEq, Inhabited

namespace Layout

def empty : Layout := ⟨[]⟩

def text (l : Layout) : String := String.join (l.pieces.map Piece.text)

def comments (l : Layout) : List Comment := l.pieces.filterMap Piece.comment?

def push (l : Layout) (p : Piece) : Layout := ⟨l.pieces ++ [p]⟩

/-- Blanks without a line feed join the space before them. -/
def pushBlanks (l : Layout) (blanks : List Char) : Layout :=
  if blanks.isEmpty then l
  else match l.pieces.getLast? with
    | some (.space t) => ⟨l.pieces.dropLast ++ [.space (t ++ String.ofList blanks)]⟩
    | _ => l.push (.space (String.ofList blanks))

def pushParts (l : Layout) : List (List Char) → Layout
  | [] => l
  | [part] => l.pushBlanks part
  | part :: rest => ((l.pushBlanks part).push .newline).pushParts rest

/-- Appends blanks, cut at the line feeds among them. -/
def pushText (l : Layout) (text : String) : Layout :=
  l.pushParts (splitWhere (· == '\n') text.toList)

def pushComment (l : Layout) (text : String) : Layout := l.push (.comment ⟨text⟩)

def pushLiteral (l : Layout) (text : String) : Layout := l.push (.literal text)

/-- Appends a token as it was lexed. -/
def pushToken (l : Layout) (t : Token) : Layout :=
  match t.kind with
  | .space => l.pushText t.text
  | .comment | .inlineComment => l.pushComment t.text
  | _ => l.pushLiteral t.text

def ofText (text : String) : Layout := empty.pushText text

def ofLiteral (text : String) : Layout := empty.pushLiteral text

/-- A single space. -/
def gap : Layout := ofText " "

def appendPiece (l : Layout) : Piece → Layout
  | .space t => l.pushText t
  | p => l.push p

def append (l other : Layout) : Layout := other.pieces.foldl appendPiece l

instance : Append Layout := ⟨append⟩

def size (l : Layout) : Nat := l.pieces.length

def isEmpty (l : Layout) : Bool := l.pieces.isEmpty

def startsWithSpace (l : Layout) : Bool := (l.pieces.head?.map Piece.isSpace).getD false

def startsWithNewline (l : Layout) : Bool := (l.pieces.head?.map Piece.isNewline).getD false

/-- Only spaces and line feeds. -/
def isBlank (l : Layout) : Bool := l.pieces.all Piece.isBlank

def hasNewline (l : Layout) : Bool := l.pieces.any Piece.isNewline

/-- Whether a comment is open after a piece, if it was `inside` one before. -/
def insideComment (inside : Bool) : Piece → Bool
  | .comment _ => true
  | .newline => false
  | _ => inside

/-- A comment that no line feed ends would swallow what is written behind it. -/
def hasOpenComment (l : Layout) : Bool := l.pieces.foldl insideComment false

def closeComment (l : Layout) : Layout := if l.hasOpenComment then l.push .newline else l

/-- The last comment and what stands before it, if only blanks stand behind it. -/
def splitTrailingComment? (l : Layout) : Option (Comment × Layout) :=
  match l.pieces.reverse.dropWhile Piece.isBlank with
  | .comment c :: before => some (c, ⟨before.reverse⟩)
  | _ => none

def trailingComment? (l : Layout) : Option Comment := l.splitTrailingComment?.map (·.1)

/-- The layout without its trailing comment and the blanks behind that. -/
def dropTrailingComment (l : Layout) : Layout := (l.splitTrailingComment?.map (·.2)).getD l

/-- The layout without its last piece. -/
def dropLast (l : Layout) : Layout := ⟨l.pieces.dropLast⟩

end Layout

/-- The text of a layout that may be missing. -/
def layoutText (l : Option Layout) : String := (l.map Layout.text).getD ""

def layoutComments (l : Option Layout) : List Comment := (l.map Layout.comments).getD []

end TransportDeck
