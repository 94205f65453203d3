import TransportDeck.Grammar.SyntaxError
import TransportDeck.Node.Layout
import TransportDeck.Token.Stream

/-!
# Productions

A production reads a phrase from the tokens of a record. It may fail, and it may report errors on
the way that do not stop it. What has been read stays read even if it fails.
-/

namespace TransportDeck

/-- A place in a record, and what has been reported before it. -/
structure Cursor where
  stream : TokenStream
  /-- How many phrases that can hold one another are open. -/
  depth : Nat
  errors : List SyntaxError

namespace Cursor

def of (stream : TokenStream) : Cursor := ⟨stream, 0, []⟩

/-- The error at the current token, or at the end of the record. -/
def unexpected (c : Cursor) (expected : String) : SyntaxError :=
  match c.stream.current? with
  | some t => .unexpectedToken expected t.text t.span
  | none => .unexpectedEnd expected c.stream.currentSpan

/-- A new error takes the place of the oldest if there are too many. -/
def report (c : Cursor) (e : SyntaxError) : Cursor :=
  let kept := if c.errors.length ≥ Limits.keptErrors then c.errors.drop 1 else c.errors
  { c with errors := kept ++ [e] }

def isTooDeep (c : Cursor) : Bool := c.depth ≥ Limits.parseDepth

end Cursor

abbrev Production := ExceptT SyntaxError (StateM Cursor)

namespace Production

variable {α σ : Type}

def current? : Production (Option Token) := return (← get).stream.current?

def currentKind? : Production (Option TokenKind) := return (← current?).map (·.kind)

def currentSpan : Production Span := return (← get).stream.currentSpan

def advance : Production Unit := modify fun c => { c with stream := c.stream.advance }

/-- Fails at the current token. -/
def unexpected (expected : String) : Production α := do throw ((← get).unexpected expected)

def report (e : SyntaxError) : Production Unit := modify (·.report e)

/-! ## Nesting -/

def tooDeep : Production α := do throw (.nestedTooDeep (← currentSpan))

def enter : Production Unit := do
  if (← get).isTooDeep then tooDeep else modify fun c => { c with depth := c.depth + 1 }

def leave : Production Unit := modify fun c => { c with depth := c.depth - 1 }

/-- A phrase one level deeper. The level is left again also if the phrase fails. -/
def nested (phrase : Production α) : Production α := do
  enter
  try
    let r ← phrase
    leave
    return r
  catch e =>
    leave
    throw e

/-! ## Repetition -/

/-- Does rounds, at most `n`, until one gives nothing. -/
def rounds (round : σ → Production (Option σ)) : (n : Nat) → σ → Production σ
  | 0, s => return s
  | n + 1, s => do
    match ← round s with
    | some next => rounds round n next
    | none => return s

/-- Does rounds until one gives nothing. Each round before that reads a token, so there are no more
rounds than tokens. -/
def loop (round : σ → Production (Option σ)) (s : σ) : Production σ := do
  let stream := (← get).stream
  rounds round (stream.size - stream.position + 1) s

/-! ## Tokens -/

/-- Reads tokens up to the first that fails a test. -/
def takeWhile (p : Token → Bool) : Production (List Token) := do
  let c ← get
  let (taken, rest) := c.stream.takeWhile p
  set { c with stream := rest }
  return taken

/-- Reads blanks, comments and marks of continuation. -/
def layout : Production (Option Layout) := do
  let taken ← takeWhile Token.isLayout
  return if taken.isEmpty then none else some (taken.foldl Layout.pushToken .empty)

/-- Fails unless only layout is left. -/
def finish : Production Unit := do
  let _ ← layout
  if (← current?).isSome then unexpected "end of record"

end Production

end TransportDeck
