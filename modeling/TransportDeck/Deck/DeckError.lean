import TransportDeck.Deck.Rejection
import TransportDeck.Output.Writer
import TransportDeck.Region.Basic

/-!
# Errors of decks

Whatever can stop the work on a deck.
-/

namespace TransportDeck

inductive DeckError where
  | reading (e : ReadError)
  | lexical (e : LexError)
  | grammatical (e : SyntaxError)
  | geometric (e : RegionError)
  | writing (e : WriteError)
  | rejected (r : Rejection)
deriving Repr

namespace DeckError

def message : DeckError → String
  | reading e => e.message
  | lexical e => e.message
  | grammatical e => e.message
  | geometric e => e.message
  | writing e => e.message
  | rejected r => r.message

def code : DeckError → Code
  | reading e => e.code
  | lexical e => e.code
  | grammatical e => e.code
  | geometric e => e.code
  | writing e => e.code
  | rejected r => r.code

/-- The error in full. -/
def render : DeckError → String
  | rejected r => r.render
  | e => "Error: " ++ e.message ++ "\n"

end DeckError

end TransportDeck
