import TransportDeck.Grammar.Basic
import TransportDeck.Grammar.Production
import TransportDeck.Node.Classifier

/-!
# Values and classifiers
-/

namespace TransportDeck.Production

/-! ## Values -/

def accepts (kind : ValueKind) (t : Token) : Bool :=
  match kind with
  | .int | .real => t.kind.isNumber
  | .text => !t.isLayout

/-- A token that can be read as a value of a kind, and the layout behind it. -/
def value (kind : ValueKind) (expected : String) : Production Field := do
  match (← current?).filter (accepts kind) with
  | none => unexpected expected
  | some t =>
    match Field.parse? t.text kind none with
    | none => unexpected expected
    | some f => do
      advance
      return f.setLayout (← layout)

/-! ## Parameters ahead -/

/-- Tokens that a list of particles may consist of. -/
def isParticleToken (t : Token) : Bool :=
  match t.kind with
  | .particleSymbols | .comma => true
  | .particle | .text | .keyword | .surfaceType => t.text.length == 1
  | _ => false

def isMark (t : Token) : Bool := t.kind == .asterisk || t.kind == .plus

def isWord (t : Token) : Bool := t.kind.isWord

/-- Tokens that may stand between the name of a parameter and its equals sign. -/
def isBeforeEquals (t : Token) : Bool :=
  t.kind.isNumber || t.kind == .colon || t.isLayout || isParticleToken t

/-- Whether an equals sign follows without values before it. -/
def equalsAhead (s : TokenStream) : Bool :=
  (s.takeWhile isBeforeEquals).2.current?.any (·.kind == .equals)

/-- Whether a parameter starts here. -/
def parameterAhead (g : Grammar) (s : TokenStream) : Bool :=
  match s.current? with
  | none => false
  | some t =>
    let s := if isMark t then s.advance else s
    s.current?.any isWord && (!g.needsEquals || equalsAhead s.advance)

def startsParameter (g : Grammar) : Production Bool := return parameterAhead g (← get).stream

/-! ## Classifiers -/

/-- The current token as a word, if it passes a test. -/
def word? (p : Token → Bool) : Production (Option Field) := do
  match (← current?).filter p with
  | some t => do
    advance
    return Field.parse? t.text .text none
  | none => return none

def isUnsigned (t : Token) : Bool :=
  match t.text.toList with
  | c :: _ => !Lexer.isSign c
  | [] => true

/-- The number that may follow a name. -/
def nameNumber? : Production (Option Field) := do
  match (← current?).filter fun t => t.kind.isNumber && isUnsigned t with
  | none => return none
  | some t =>
    match Field.parse? t.text .int none with
    | some f => do
      advance
      return some f.neverPad
    | none => return none

/-- The particles that may follow a colon. -/
def particles? : Production (Option ParticleList) := do
  if (← currentKind?) == some .colon then
    let colon ← currentSpan
    advance
    let text := ":" ++ textOf (← takeWhile isParticleToken)
    match ParticleList.parse? text with
    | some p => return some p
    | none => throw (.unexpectedToken "particle list" text colon)
  else return none

def classifier (g : Grammar) : Production Classifier := do
  if !g.allows .classifier then unexpected "value"
  else
    let modifier ← word? isMark
    match ← word? isWord with
    | none => unexpected "record name"
    | some name => do
      let number ← nameNumber?
      let particles ← particles?
      return ⟨modifier, name, number, particles, ← layout⟩

end TransportDeck.Production
