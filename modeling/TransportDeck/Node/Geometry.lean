import TransportDeck.Node.Shorthand

/-!
# Geometry as written

The geometry of a cell as its text shows it: signed numbers joined by juxtaposition, `:`, `#` and
parentheses. The entries stand in an arena, each operator names its operands by their places, and
all punctuation is kept, so that an untouched geometry is written back as it was.
-/

namespace TransportDeck

inductive GeometryOp where
  /-- Juxtaposition. -/
  | intersection
  /-- A colon between the operands. -/
  | union
  /-- `#` before the operand. -/
  | complement
  /-- Parentheses. -/
  | group
deriving Repr, DecidableEq

namespace GeometryOp

def name : GeometryOp → String
  | intersection => "intersection"
  | union => "union"
  | complement => "complement"
  | group => "group"

def isBinary : GeometryOp → Bool
  | intersection | union => true
  | _ => false

end GeometryOp

structure Branch where
  op : GeometryOp
  left : Nat
  /-- Only a binary operator has a second operand. -/
  right : Option Nat
  /-- The text between the operands, or before the only one. -/
  opLayout : Layout
  /-- The closing parenthesis and the layout before it. -/
  closing : Option Layout
deriving Repr

namespace Branch

def binary (op : GeometryOp) (left : Nat) (layout : Layout) (right : Nat) : Branch :=
  ⟨op, left, some right, layout, none⟩

def complement (layout : Layout) (operand : Nat) : Branch :=
  ⟨.complement, operand, none, layout, none⟩

def group (opening : Layout) (inner : Nat) (closing : Layout) : Branch :=
  ⟨.group, inner, none, opening, some closing⟩

def unionLayout (l : Layout) : Layout := (Layout.empty ++ l).pushLiteral ":"

def intersectionLayout (l : Layout) : Layout :=
  let kept : Layout := ⟨l.pieces.filter (·.text != ":")⟩
  if kept.isEmpty then .gap else kept

/-- Turns an intersection into a union or back, and changes only the punctuation. -/
def switchTo (b : Branch) (op : GeometryOp) : Branch :=
  if b.op = op || !op.isBinary || !b.op.isBinary then b
  else
    { b with
      op
      opLayout := if op = .union then unionLayout b.opLayout else intersectionLayout b.opLayout }

end Branch

inductive GeometryEntry where
  /-- A signed surface number, or a cell number behind `#`. -/
  | leaf (f : Field)
  /-- A run of surfaces that goes on with an intersection. -/
  | run (s : Shorthand)
  | branch (b : Branch)
deriving Repr

structure Geometry where
  entries : Array GeometryEntry
  root : Nat
  /-- The layout between the last operand and the parameters. -/
  trailing : Option Layout
deriving Repr

namespace Geometry

def empty : Geometry := ⟨#[], 0, none⟩

def size (g : Geometry) : Nat := g.entries.size

def isEmpty (g : Geometry) : Bool := g.entries.isEmpty

/-- Appends an entry; it stands at the old size. -/
def push (g : Geometry) (e : GeometryEntry) : Geometry := { g with entries := g.entries.push e }

def entry? (g : Geometry) (id : Nat) : Option GeometryEntry := g.entries[id]?

def modify (g : Geometry) (id : Nat) (f : GeometryEntry → GeometryEntry) : Geometry :=
  { g with entries := g.entries.modify id f }

def setRoot (g : Geometry) (root : Nat) : Geometry := { g with root }

def setTrailing (g : Geometry) (l : Option Layout) : Geometry := { g with trailing := l }

/-- The places below an entry, the entry first, then the operands from left to right. No path is
longer than the arena. -/
def walkFrom (g : Geometry) : (fuel : Nat) → Nat → List Nat
  | 0, _ => []
  | fuel + 1, id =>
    match g.entry? id with
    | none => []
    | some (.branch b) =>
      id :: (g.walkFrom fuel b.left ++
        match b.right with
        | some right => g.walkFrom fuel right
        | none => [])
    | some _ => [id]

def walk (g : Geometry) : List Nat := g.walkFrom g.size g.root

/-- The numbers in the order in which the walk meets them. -/
def leaves (g : Geometry) : List Field :=
  g.walk.filterMap fun id => match g.entry? id with
    | some (.leaf f) => some f
    | _ => none

def renderBranch (b : Branch) (left right : Rendered) : Rendered :=
  let op := Rendered.ofText b.opLayout.text
  match b.op with
  | .intersection | .union => left ++ op ++ right
  | .complement => op ++ left
  | .group => op ++ left ++ .ofText ((b.closing.map Layout.text).getD ")")

def renderFrom (t : Tolerance) (g : Geometry) : (fuel : Nat) → Nat → Rendered
  | 0, _ => .empty
  | fuel + 1, id =>
    match g.entry? id with
    | none => .empty
    | some (.leaf f) => f.render t
    | some (.run s) => s.render t
    | some (.branch b) =>
      renderBranch b (renderFrom t g fuel b.left) <|
        match b.op.isBinary, b.right with
        | true, some right => renderFrom t g fuel right
        | _, _ => .empty

def render (t : Tolerance) (g : Geometry) : Rendered :=
  renderFrom t g g.size g.root ++ .ofText (layoutText g.trailing)

def entryComments : GeometryEntry → List Comment
  | .leaf f => f.comments
  | .run s => s.comments
  | .branch b => b.opLayout.comments ++ layoutComments b.closing

def comments (g : Geometry) : List Comment :=
  g.walk.flatMap (fun id => ((g.entry? id).map entryComments).getD []) ++
    layoutComments g.trailing

end Geometry

end TransportDeck
