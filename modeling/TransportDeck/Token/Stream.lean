import TransportDeck.Source.Excerpt
import TransportDeck.Token.Basic

/-!
# Token streams

Tokens with a place in them. The stream keeps every token, and an index of those that are not
layout lets a reader look past blanks and comments without consuming them.
-/

namespace TransportDeck

structure TokenStream where
  tokens : Array Token
  /-- The places of the tokens that are not layout, in increasing order. -/
  significant : Array Nat
  position : Nat

namespace TokenStream

def significantPlaces (tokens : Array Token) : Array Nat :=
  (Array.range tokens.size).filter fun i =>
    match tokens[i]? with
    | some t => !t.isLayout
    | none => false

def of (tokens : List Token) : TokenStream :=
  ⟨tokens.toArray, significantPlaces tokens.toArray, 0⟩

def size (s : TokenStream) : Nat := s.tokens.size

def current? (s : TokenStream) : Option Token := s.tokens[s.position]?

def peek? (s : TokenStream) (n : Nat) : Option Token := s.tokens[s.position + n]?

/-- Steps over the current token, if there is one. -/
def advance (s : TokenStream) : TokenStream :=
  if s.position < s.tokens.size then { s with position := s.position + 1 } else s

/-- Goes to a place; past the last token is the end. -/
def moveTo (s : TokenStream) (place : Nat) : TokenStream :=
  { s with position := min place s.tokens.size }

/-- The number of entries of an increasing array below `bound`, found by halving. -/
def countBelow (places : Array Nat) (bound low high : Nat) : Nat :=
  if _h : low < high then
    let middle := (low + high) / 2
    match places[middle]? with
    | some p =>
      if p < bound then countBelow places bound (middle + 1) high
      else countBelow places bound low middle
    | none => countBelow places bound low middle
  else low
termination_by high - low

/-- How many of the tokens that are not layout are passed. -/
def passed (s : TokenStream) : Nat :=
  countBelow s.significant s.position 0 s.significant.size

/-- The token with the given number, from 0, of those that are not layout. -/
def significant? (s : TokenStream) (place : Nat) : Option Token :=
  match s.significant[place]? with
  | some i => s.tokens[i]?
  | none => none

/-- The `n`th token, from 0, that is not layout and not yet passed. Its number is a sum of words of
64 bits. A sum past the last word starts again from 0, and stops the work where sums are checked. -/
def nthSignificant? (s : TokenStream) (n : Nat) : Option Token :=
  s.significant? (UInt64.ofNat s.passed + UInt64.ofNat n).toNat

/-- The next token that is not layout. -/
def nextSignificant? (s : TokenStream) : Option Token := s.significant? s.passed

def atEnd (s : TokenStream) : Bool := s.position ≥ s.tokens.size

def onlyLayoutLeft (s : TokenStream) : Bool := s.nextSignificant?.isNone

theorem lt_size_of_current? {s : TokenStream} {t : Token} (h : s.current? = some t) :
    s.position < s.tokens.size := (Array.getElem?_eq_some_iff.mp h).1

/-- The tokens from here on up to the first that fails a test, and the stream behind them. -/
def takeWhile (p : Token → Bool) (s : TokenStream) : List Token × TokenStream :=
  match _h : s.current? with
  | none => ([], s)
  | some t =>
    if p t then
      let (taken, rest) := takeWhile p s.advance
      (t :: taken, rest)
    else ([], s)
termination_by s.tokens.size - s.position
decreasing_by
  have := lt_size_of_current? ‹_›
  simp only [advance, this, if_true]
  omega

/-- The empty span behind the last token. -/
def endSpan (s : TokenStream) : Span :=
  match s.tokens.back? with
  | some t => .point t.span.stop
  | none => .point .start

/-- The span of the current token, or the empty span behind the last one. -/
def currentSpan (s : TokenStream) : Span :=
  match s.current? with
  | some t => t.span
  | none => s.endSpan

def text (s : TokenStream) : String := textOf s.tokens.toList

end TokenStream

end TransportDeck
