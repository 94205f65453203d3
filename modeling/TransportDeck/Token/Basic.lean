import TransportDeck.Source.Position
import TransportDeck.Text.Escape
import TransportDeck.Token.Kind

/-!
# Tokens

A token is a lexeme with its kind and its place in the text.
-/

namespace TransportDeck

structure Token where
  kind : TokenKind
  text : String
  span : Span
deriving Repr, DecidableEq

namespace Token

def isLayout (t : Token) : Bool := t.kind.isLayout

/-- Whether the token spells a word, in any letter case. -/
def spells (t : Token) (word : String) : Bool := Text.sameWord t.text word

/-- How a message names the token. -/
def shown (t : Token) : String := t.kind.describe ++ " '" ++ Text.escaped t.text ++ "'"

end Token

/-- The texts of tokens, one behind the other. -/
def textOf (tokens : List Token) : String := String.join (tokens.map Token.text)

/-- How many tokens there are of the kinds that are counted. -/
structure TokenCounts where
  all : Nat
  layout : Nat
  comments : Nat
  shorthands : Nat
  numbers : Nat
deriving Repr, DecidableEq

def TokenCounts.of (tokens : List Token) : TokenCounts where
  all := tokens.length
  layout := tokens.countP (·.kind.isLayout)
  comments := tokens.countP (·.kind.isComment)
  shorthands := tokens.countP (·.kind.isShorthand)
  numbers := tokens.countP (·.kind.isNumber)

end TransportDeck
