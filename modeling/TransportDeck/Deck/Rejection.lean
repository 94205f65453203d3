import TransportDeck.Diagnostics.Event
import TransportDeck.Grammar.SyntaxError
import TransportDeck.Input.Card
import TransportDeck.Source.Excerpt

/-!
# Rejected cards

A card that cannot be read, with the errors found in it. It keeps the text of the card, so that the
errors can be shown in it.
-/

namespace TransportDeck

structure Rejection where
  path : String
  firstLine : Nat
  block : Block
  text : String
  errors : List SyntaxError
deriving Repr

namespace Rejection

def of (c : Card) (errors : List SyntaxError) : Rejection :=
  ⟨c.path, c.firstLine, c.block, c.text, errors⟩

/-- The error that stands for the others. -/
def first? (r : Rejection) : Option SyntaxError := r.errors.head?

def code (r : Rejection) : Code := (r.first?.map SyntaxError.code).getD .grammarViolation

def isUnsupported (r : Rejection) : Bool := r.errors.any SyntaxError.isUnsupported

/-- The place of the first error in the text of the card. -/
def position? (r : Rejection) : Option Position := (r.first?.bind SyntaxError.span?).map (·.start)

/-- The line of the first error in the file. -/
def line (r : Rejection) : Nat :=
  match r.position? with
  | some p => lineInFile (max r.firstLine 1) p.line
  | none => r.firstLine

def column? (r : Rejection) : Option Nat := r.position?.map (·.column)

def showError (e : Excerpt) (error : SyntaxError) : String :=
  match error.span? with
  | some span => e.render span error.message
  | none => "Error: " ++ error.message ++ "\n"

/-- Every error, shown in the text of the card. -/
def render (r : Rejection) : String :=
  r.block.name ++ " record at " ++ r.path ++ ":" ++ toString r.firstLine ++ "\n" ++
    String.join (r.errors.map (showError (.of r.text r.firstLine)))

/-- One line about the first error. -/
def message (r : Rejection) : String :=
  r.path ++ ":" ++ toString r.line ++ ": " ++
    (match r.first? with
      | some e => e.message
      | none => "record rejected") ++
    (if r.errors.length > 1 then
      " (and " ++ toString (r.errors.length - 1) ++ " more)"
    else "")

def event (r : Rejection) : Event :=
  (Event.error r.code r.message).withValues
    [("block", r.block.name), ("line", toString r.line)]

end Rejection

end TransportDeck
