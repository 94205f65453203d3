import TransportDeck.Grammar.Atoms
import TransportDeck.Node.Nuclides
import TransportDeck.Node.Parameters

/-!
# Lists, nuclides and parameters
-/

namespace TransportDeck.Production

/-- An error of a shorthand, at its token. -/
def orMalformed {α : Type} (span : Span) : Except ShorthandError α → Production α
  | .ok a => return a
  | .error e => throw (.malformedShorthand e span)

/-! ## Value lists -/

/-- Where integers are preferred, a number that is none is read as a real number. -/
def numberKind (preferred : ValueKind) (text : String) : ValueKind :=
  if preferred = .int && (Number.readInt? text).isNone then .real else preferred

/-- Tokens other than words that a list of data items takes as they are. -/
def isItemMark : TokenKind → Bool
  | .numberWord | .nuclide | .thermalLaw | .fileName | .particleSymbols | .leftParen | .rightParen
  | .asterisk | .plus | .colon | .comma => true
  | _ => false

/-- Tokens of transformations and lattice ranges among the parameters of a cell. -/
def isRangeMark : TokenKind → Bool
  | .leftParen | .rightParen | .colon => true
  | _ => false

/-- Whether a list takes a token as a word. -/
def isItem (g : Grammar) (t : Token) : Bool :=
  if g.allows .dataItems || g.allows .request then isItemMark t.kind || t.kind.isWord
  else g.allows .parameters && isRangeMark t.kind

/-- What a shorthand behind a list starts from, and the list without it. -/
def leadOf (kind : ShorthandKind) (span : Span) (l : FieldList) : Production (Lead × FieldList) :=
  if l.endsWithRun then return (.chained (l.last?.bind Field.signed), l)
  else match l.popField? with
    | some (f, rest) => return (.owned f, rest)
    | none => throw (.malformedShorthand (.missingLead kind.name) span)

/-- A shorthand whose token has just been read. -/
def shorthand (g : Grammar) (kind : ShorthandKind) (t : Token) (l : FieldList) :
    Production FieldList := do
  if !g.allows .shorthands then
    throw (.violation (kind.name ++ " shortcut is not allowed here") t.span)
  else
    let id := l.nextId
    let l := l.takeId
    match kind with
    | .jump => do
      return l.pushRun (← orMalformed t.span (Shorthand.jump id t.text (← layout)))
    | .copies => do
      let (lead, l) ← leadOf kind t.span l
      return l.pushRun (← orMalformed t.span (Shorthand.copies id lead t.text (← layout)))
    | .multiply => do
      let (lead, l) ← leadOf kind t.span l
      return l.pushRun (← orMalformed t.span (Shorthand.multiply id lead t.text (← layout)))
    | .linear | .logarithmic => do
      let (lead, l) ← leadOf kind t.span l
      let mid ← layout
      let last ← value .real "interpolation bound"
      return l.pushRun (← orMalformed t.span (Shorthand.interpolate id kind lead t.text mid last))

/-- The next item of a list, if there is one. -/
def item? (g : Grammar) (preferred : ValueKind) (l : FieldList) :
    Production (Option FieldList) := do
  match ← current? with
  | none => return none
  | some t =>
    match t.kind with
    | .number | .zero => do
      return some (l.pushField (← value (numberKind preferred t.text) "number"))
    | .shorthand kind => do
      advance
      return some (← shorthand g kind t l)
    | _ =>
      if ← startsParameter g then return none
      else if isItem g t then return some (l.pushField (← value .text "data item"))
      else return none

/-- Numbers, shorthands and words, up to a parameter or a token that no list can hold. The layout
behind the last item goes to the list. -/
def values (g : Grammar) (preferred : ValueKind) : Production FieldList :=
  return (← loop (item? g preferred) .empty).detachTail

/-! ## Nuclides -/

def startsNuclide (t : Token) : Bool := t.kind == .nuclide || t.kind == .number

def nuclide? (ns : Nuclides) : Production (Option Nuclides) := do
  if (← current?).any startsNuclide then
    let id ← value .text "isotope identifier"
    let amount ← value .real "isotope fraction"
    return some (ns.push (.of id amount))
  else return none

/-- Pairs of a nuclide and an amount, at least one. -/
def nuclides : Production Nuclides := do
  let ns ← loop nuclide? .empty
  if ns.isEmpty then unexpected "isotope identifier" else return ns

/-! ## Parameters -/

/-- The equals sign of a parameter and the layout behind it. -/
def separator? (g : Grammar) : Production (Option Layout) := do
  if (← currentKind?) == some .equals then
    advance
    return some (.ofLiteral "=" ++ (← layout).getD .empty)
  else if g.needsEquals then unexpected "'='"
  else return none

def parameter (g : Grammar) : Production Parameter := do
  let c ← classifier g
  let separator ← separator? g
  let vs ← values g .int
  if vs.isEmpty && separator.isSome then unexpected "parameter value"
  else return ⟨c, separator, vs⟩

/-- The next parameter. One whose key is there already is reported and left out. -/
def parameter? (g : Grammar) (ps : Parameters) : Production (Option Parameters) := do
  if ← startsParameter g then
    let span ← currentSpan
    match ps.insert (← parameter g) with
    | .ok ps => return some ps
    | .error duplicate => do
      report (.duplicateParameter duplicate.key span)
      return some ps
  else return none

def parameters (g : Grammar) : Production Parameters :=
  if g.allows .parameters then loop (parameter? g) .empty else return .empty

end TransportDeck.Production
