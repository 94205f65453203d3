import TransportDeck.Grammar.Geometry
import TransportDeck.Record.Basic

/-!
# Records

One production for each kind of record, and the reading of a card with them.
-/

namespace TransportDeck

namespace Production

/-! ## Cells -/

/-- The form that describes a cell by another one has no grammar. -/
def refuseLike : Production Unit := do
  match (← current?).filter (·.spells "like") with
  | some t => throw (.unsupported "LIKE n BUT" t.span)
  | none => return ()

/-- The density, which a cell of void does not have. -/
def density? (material : Field) : Production (Option Field) := do
  if material.toInt? == some 0 then return none
  else return some (← value .real "density").asSignedFraction

def cell (g : Grammar) : Production CellRecord := do
  let leading ← layout
  let number ← value .int "cell number"
  refuseLike
  let material ← value .int "material number"
  let density ← density? material
  let geometry ← geometry g
  let parameters ← parameters g
  finish
  return ⟨leading, number, material, density, geometry, parameters, none⟩

/-! ## Surfaces -/

/-- A plus sign that is glued to the number of a surface marks it and is no sign. -/
def isMarkedNumber (t : Token) : Bool :=
  t.kind == .number && t.text.toList.head? == some '+'

/-- The mark and the number that a token such as `+3` holds. -/
def markedNumber (t : Token) : Production (Field × Field) := do
  advance
  let behind ← layout
  match Field.parse? (String.ofList (t.text.toList.drop 1)) .int behind,
      Field.parse? "+" .text none with
  | some number, some mark => return (mark.neverPad, number)
  | _, _ => throw (.unexpectedToken "surface number" t.text t.span)

/-- The mark of a surface, if it has one, and its number. -/
def surfaceNumber : Production (Option Field × Field) := do
  match (← current?).filter isMarkedNumber with
  | some t => do
    let (mark, number) ← markedNumber t
    return (some mark, number)
  | none => do
    let mark ← word? isMark
    return (mark.map Field.neverPad, ← value .int "surface number")

def transform? : Production (Option Field) := do
  if (← currentKind?).any TokenKind.isNumber then return some (← value .int "transform number")
  else return none

def surfaceType : Production Field := do
  if (← currentKind?) == some .surfaceType then value .text "surface type"
  else unexpected "surface type"

def surface (g : Grammar) : Production SurfaceRecord := do
  let leading ← layout
  let (mark, number) ← surfaceNumber
  let transform ← transform?
  let type ← surfaceType
  let constants ← values g .real
  finish
  return ⟨leading, mark, number, transform, type, constants⟩

/-! ## Data -/

/-- A keyword that is no parameter. -/
def keyword? (g : Grammar) : Production (Option Field) := do
  if (← currentKind?) == some .keyword && !parameterAhead g (← get).stream then
    return some (← value .text "keyword")
  else return none

/-- The nuclides of a material, or values. -/
def body (g : Grammar) (c : Classifier) : Production DataBody := do
  if Text.sameWord c.word "m" && g.allows .nuclides && (← current?).any startsNuclide then
    return .nuclides (← nuclides)
  else if g.allows .dataItems then return .values (← values g .real)
  else return .values .empty

def data (g : Grammar) : Production DataRecord := do
  let leading ← layout
  let c ← classifier g
  let keyword ← keyword? g
  let body ← body g c
  let parameters ← parameters g
  finish
  return ⟨leading, c, keyword, body, parameters⟩

/-! ## Requests for files -/

def read (g : Grammar) : Production ReadRecord := do
  let leading ← layout
  if (← current?).any (·.spells "read") then
    let keyword ← value .text "READ"
    let parameters ← parameters g
    finish
    return ⟨leading, keyword, parameters⟩
  else unexpected "READ"

def record (g : Grammar) : Production Record := do
  match g.kind with
  | .cell => return .cell (← cell g)
  | .surface => return .surface (← surface g)
  | .data => return .data (← data g)
  | .read => return .read (← read g)

end Production

/-! ## Whole records -/

/-- Reads the rest of a record. All errors are given, those that were reported on the way first. -/
def Cursor.parse (g : Grammar) (c : Cursor) : Except (List SyntaxError) Record :=
  if c.stream.onlyLayoutLeft then .error [.emptyRecord]
  else match (Production.record g).run c with
    | (.ok r, c) => if c.errors.isEmpty then .ok r else .error c.errors
    | (.error e, c) => .error (c.report e).errors

/-- Reads a record from its text. -/
def Grammar.parse (g : Grammar) (text : String) : Except (List SyntaxError) Record :=
  match tokenize g.mode text with
  | .error e => .error [.lexical e]
  | .ok tokens => (Cursor.of (.of tokens)).parse g

/-- Whether a card that cannot be read may be kept verbatim: data records whose name has no grammar
of its own, unless they ask for what is not supported. -/
def canKeepVerbatim (g : Grammar) (text : String) (errors : List SyntaxError) : Bool :=
  g.kind = .data && !errors.any SyntaxError.isUnsupported &&
    match VerbatimRecord.nameOf? text with
    | some name => !Vocabulary.isModeledData name
    | none => false

/-- Reads a card with the grammar of its block. -/
def Card.parse (c : Card) : Except (List SyntaxError) Record :=
  let g := Grammar.ofCard c
  match g.parse c.text with
  | .ok r => .ok r
  | .error errors =>
    if canKeepVerbatim g c.text errors then .ok (.verbatim (.ofText c.text)) else .error errors

end TransportDeck
