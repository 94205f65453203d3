import TransportDeck.Source.Position
import TransportDeck.Text.Blank

/-!
# Excerpts

A text with the line number it has in its file, and the picture of it in which a span is marked.
-/

namespace TransportDeck

structure Excerpt where
  source : String
  firstLine : Nat
deriving Repr, DecidableEq

namespace Excerpt

/-- Line numbers start at 1. -/
def of (source : String) (firstLine : Nat) : Excerpt := ⟨source, max firstLine 1⟩

def lines (e : Excerpt) : List String := Text.splitString '\n' e.source

/-- The line with the given number, counted from 1 within the text. -/
def line? (e : Excerpt) (n : Nat) : Option String :=
  if n = 0 then none else e.lines[n - 1]?

/-- How many columns of `line` a span marks, at least one. -/
def markWidth (span : Span) (line : String) : Nat :=
  max 1 <|
    if span.start.line == span.stop.line then span.stop.column - span.start.column
    else line.utf8ByteSize - (span.start.column - 1)

def marker (span : Span) (line : String) : String :=
  Text.spaces 6 ++ "| " ++ Text.spaces (span.start.column - 1) ++
    String.ofList (List.replicate (markWidth span line) '^') ++ " not expected here.\n"

def numbered (e : Excerpt) (span : Span) (index : Nat) (line : String) : String :=
  ">" ++ Text.padLeft 5 ' ' (toString (lineInFile e.firstLine (index + 1))) ++ "| " ++
    line ++ "\n" ++
    if index + 1 == span.start.line then marker span line else ""

/-- The whole text with line numbers, under a message, and the span marked. -/
def render (e : Excerpt) (span : Span) (message : String) : String :=
  "Error: " ++ message ++ "\n" ++
  "  --> " ++ toString (lineInFile e.firstLine span.start.line) ++ ":" ++
    toString span.start.column ++ "\n" ++
  String.join (e.lines.mapIdx (e.numbered span))

end Excerpt

end TransportDeck
