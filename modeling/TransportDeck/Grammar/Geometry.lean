import TransportDeck.Grammar.Atoms
import TransportDeck.Grammar.Lists
import TransportDeck.Node.Geometry

/-!
# Geometry

A geometry is a union of intersections of factors; a factor is a number, a complement or a geometry
in parentheses. The layout behind an operand is handed on until it is known where it belongs:
between two operands, before a parenthesis, or behind the geometry.
-/

namespace TransportDeck

/-- An operand that has been read: its place, and the layout behind it. -/
structure Operand where
  id : Nat
  behind : Option Layout

/-- Reading with a geometry that grows. -/
abbrev Building := StateT Geometry Production

namespace Production

/-- The place of a new entry. -/
def place (e : GeometryEntry) : Building Nat :=
  modifyGet fun g => (g.size, g.push e)

/-- The number at the right edge of an entry. -/
def edgeValue (g : Geometry) : (fuel : Nat) → Nat → Option Value
  | 0, _ => none
  | fuel + 1, id =>
    match g.entry? id with
    | none => none
    | some (.leaf f) => f.signed
    | some (.run s) => s.members.getLast?.bind Field.signed
    | some (.branch b) => edgeValue g fuel (b.right.getD b.left)

/-! ## Factors -/

/-- An opening mark and the layout behind it. -/
def opening (mark : String) : Production Layout := do
  advance
  return .ofLiteral mark ++ (← layout).getD .empty

def startsOperand (t : Token) : Bool := t.kind.isNumber || t.kind == .leftParen

def expectedFactor : String := "surface number, '#' or '('"

def leaf (t : Token) : Building Operand := do
  match Field.parse? t.text .int none with
  | none => throw (.unexpectedToken "surface number" t.text t.span)
  | some f => do
    advance
    let id ← place (.leaf f.asSignedIdentifier)
    return ⟨id, ← layout⟩

/-- `#` and what it complements. -/
def complement (factor : Building Operand) : Building Operand := do
  let mark ← opening "#"
  if (← current?).any startsOperand then
    let operand ← factor
    let id ← place (.branch (.complement mark operand.id))
    return ⟨id, operand.behind⟩
  else unexpected "cell number or '(' after '#'"

/-- Parentheses and what they enclose. -/
def group (inner : Building Operand) : Building Operand := do
  let mark ← opening "("
  let operand ← inner
  if (← currentKind?) == some .rightParen then
    advance
    let closing := (operand.behind.getD .empty).pushLiteral ")"
    let id ← place (.branch (.group mark operand.id closing))
    return ⟨id, ← layout⟩
  else unexpected "')'"

/-! ## Intersections and unions -/

/-- A shorthand that goes on from the number before it. -/
def surfaceRun (g : Grammar) (kind : ShorthandKind) (t : Token) (before : Nat) : Building Operand :=
  do
  advance
  if !g.allows .shorthands then throw (.violation "Shortcuts are not allowed here" t.span)
  else
    let tree ← get
    let lead := Lead.chained (edgeValue tree tree.size before)
    let s ← match kind with
      | .copies => orMalformed t.span (Shorthand.copies tree.size lead t.text none)
      | .multiply => orMalformed t.span (Shorthand.multiply tree.size lead t.text none)
      | _ =>
        throw (.violation ("A " ++ kind.name ++ " shortcut cannot appear in a geometry") t.span)
    let id ← place (.run s)
    return ⟨id, ← layout⟩

/-- The next operand of an intersection, if there is one. -/
def nextFactor? (g : Grammar) (factor : Building Operand) (before : Nat) :
    Building (Option Operand) := do
  match ← current? with
  | none => return none
  | some t =>
    match t.kind with
    | .shorthand kind => return some (← surfaceRun g kind t before)
    | .number | .zero | .leftParen | .complement => return some (← factor)
    | _ => return none

/-- Joins the operand before to the next one. -/
def join (op : GeometryOp) (left : Operand) (mark : Layout) (right : Operand) :
    Building Operand := do
  let id ← place (.branch (.binary op left.id mark right.id))
  return ⟨id, right.behind⟩

/-- Does rounds on an operand and the geometry around it. -/
def loopBuilding (round : Operand → Building (Option Operand)) (o : Operand) :
    Building Operand := fun tree =>
  loop (fun (o, tree) => return match ← round o tree with
    | (some o, tree) => some (o, tree)
    | (none, _) => none) (o, tree)

def intersection (g : Grammar) (factor : Building Operand) : Building Operand := do
  loopBuilding (fun left => do
    match ← nextFactor? g factor left.id with
    | some right => return some (← join .intersection left (left.behind.getD .empty) right)
    | none => return none) (← factor)

/-- The layout around a colon and the colon. -/
def colon (before : Option Layout) : Production Layout := do
  advance
  return (before.getD .empty).pushLiteral ":" ++ (← layout).getD .empty

def union (g : Grammar) (factor : Building Operand) : Building Operand := do
  loopBuilding (fun left => do
    if (← currentKind?) == some .colon then
      let mark ← colon left.behind
      return some (← join .union left mark (← intersection g factor))
    else return none) (← intersection g factor)

/-! ## The whole -/

/-- A factor, in which `room` more factors may be nested. -/
def factor (g : Grammar) : (room : Nat) → Building Operand
  | 0 => tooDeep (α := Operand)
  | room + 1 => fun tree => nested <| (do
      match ← current? with
      | none => unexpected expectedFactor
      | some t =>
        match t.kind with
        | .number | .zero => leaf t
        | .complement => complement (factor g room)
        | .leftParen => group (union g (factor g room))
        | _ => unexpected expectedFactor : Building Operand) tree

/-- The geometry of a cell. -/
def geometry (g : Grammar) : Production Geometry := do
  if !g.allows .geometry then unexpected "value"
  else
    let room := Limits.parseDepth - (← get).depth
    let (root, tree) ← (union g (factor g room)).run .empty
    return (tree.setRoot root.id).setTrailing root.behind

end Production

end TransportDeck
