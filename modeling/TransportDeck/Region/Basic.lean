import TransportDeck.Diagnostics.Code

/-!
# Regions

A region of space is a Boolean expression over the sides of surfaces and the insides of cells. The
nodes stand in an arena and an operator names its operands by their places. A node that was read
from the text of a cell remembers the entry that it came from, so that writing it back can use that
entry again.
-/

namespace TransportDeck

inductive RegionOp where
  | and
  | or
  | complement
deriving Repr, DecidableEq

def RegionOp.name : RegionOp → String
  | and => "and"
  | or => "or"
  | complement => "complement"

/-- One side of a surface, or the inside of a cell. -/
structure Side where
  divider : Int
  positive : Bool
  isCell : Bool
deriving Repr, DecidableEq

namespace Side

/-- The side that a signed number names: `-2` is the negative side of surface 2. -/
def surface (signed : Int) : Side := ⟨signed.natAbs, 0 ≤ signed, false⟩

def cell (number : Int) : Side := ⟨number.natAbs, true, true⟩

def signed (s : Side) : Int := if s.positive then s.divider else -s.divider

def text (s : Side) : String :=
  if s.isCell then toString s.divider
  else (if s.signed < 0 then "" else "+") ++ toString s.signed

end Side

inductive RegionNode where
  | unit (side : Side) (origin : Option Nat)
  /-- A complement has no second operand. -/
  | branch (op : RegionOp) (left : Nat) (right : Option Nat) (origin : Option Nat)
deriving Repr, DecidableEq

namespace RegionNode

def origin : RegionNode → Option Nat
  | unit _ o => o
  | branch _ _ _ o => o

def setOrigin (o : Option Nat) : RegionNode → RegionNode
  | unit s _ => unit s o
  | branch op l r _ => branch op l r o

def children : RegionNode → List Nat
  | unit .. => []
  | branch _ l r _ => l :: r.toList

def side? : RegionNode → Option Side
  | unit s _ => some s
  | branch .. => none

/-- How a message names the kind of a node. -/
def kindName : RegionNode → String
  | unit .. => "unit half-space"
  | branch .. => "half-space"

/-- The node with its operands renumbered. -/
def renumber (f : Nat → Nat) : RegionNode → RegionNode
  | unit s o => unit s o
  | branch op l r o => branch op (f l) (r.map f) o

end RegionNode

/-- Why regions cannot be compared, or a geometry has no region. -/
inductive RegionError where
  | incomparable (left right : String)
  | noEntries
  | notInteger (id : Nat)
  | emptyRun
  | oneOperand (id : Nat)
  | unknownEntry (id : Nat)
deriving Repr, DecidableEq

namespace RegionError

def message : RegionError → String
  | incomparable left right => "Cannot compare " ++ left ++ " with " ++ right
  | noEntries => "Illegal geometry state: geometry has no entries"
  | notInteger id =>
    "Illegal geometry state: geometry entry " ++ toString id ++ " is not an integer"
  | emptyRun => "Illegal geometry state: shortcut expands to nothing"
  | oneOperand id =>
    "Illegal geometry state: operator entry " ++ toString id ++ " has one operand"
  | unknownEntry id => "Geometry entry " ++ toString id ++ " does not exist"

def code : RegionError → Code
  | incomparable .. => .incomparable
  | unknownEntry _ => .unknownEntry
  | _ => .illegalGeometry

end RegionError

structure Region where
  nodes : Array RegionNode
  root : Nat
  /-- The number of the cell that the region belongs to. -/
  cell : Option Int
deriving Repr

namespace Region

def ofSide (s : Side) : Region := ⟨#[.unit s none], 0, none⟩

/-- One side of a surface. -/
def surface (signed : Int) : Region := ofSide (.surface signed)

/-- All that lies outside a cell. -/
def outsideCell (number : Int) : Region :=
  ⟨#[.unit (.cell number) none, .branch .complement 0 none none], 1, none⟩

def size (r : Region) : Nat := r.nodes.size

def node? (r : Region) (id : Nat) : Option RegionNode := r.nodes[id]?

def op? (r : Region) : Option RegionOp :=
  match r.node? r.root with
  | some (.branch op ..) => some op
  | _ => none

def setCell (r : Region) (cell : Option Int) : Region := { r with cell }

/-! ## Walking -/

/-- Visits what is on the stack and puts the operands of each new node on it, left on top. -/
def visit (r : Region) : (fuel : Nat) → (seen : Array Bool) → (stack : List Nat) → List Nat
  | 0, _, _ => []
  | _, _, [] => []
  | fuel + 1, seen, id :: stack =>
    match r.node? id with
    | none => r.visit fuel seen stack
    | some n =>
      if seen[id]?.getD true then r.visit fuel seen stack
      else id :: r.visit fuel (seen.modify id fun _ => true) (n.children ++ stack)

/-- The places below the root, parents before operands and left before right. Each node puts at
most two more on the stack. -/
def walk (r : Region) : List Nat :=
  r.visit (2 * r.size + 1) (Array.replicate r.size false) [r.root]

/-- The sides in written order. -/
def sides (r : Region) : List Side := r.walk.filterMap fun id => (r.node? id).bind (·.side?)

def leafCount (r : Region) : Nat := r.sides.length

def depthFrom (r : Region) : (fuel : Nat) → Nat → Nat
  | 0, _ => 0
  | fuel + 1, id =>
    match r.node? id with
    | none => 0
    | some n => 1 + (n.children.map (r.depthFrom fuel)).foldl max 0

/-- The nodes on the longest way from the root to a side. -/
def depth (r : Region) : Nat := r.depthFrom r.size r.root

/-- The numbers of the surfaces, or of the cells, each once and in written order. -/
def dividers (r : Region) (cells : Bool) : List Int :=
  ((r.sides.filter (·.isCell == cells)).map (·.divider)).eraseDups

def surfaces (r : Region) : List Int := r.dividers false

def cells (r : Region) : List Int := r.dividers true

/-! ## Meaning -/

def holdsAt (r : Region) (inside : Side → Bool) : (fuel : Nat) → Nat → Bool
  | 0, _ => false
  | fuel + 1, id =>
    match r.node? id with
    | none => false
    | some (.unit s _) => inside s
    | some (.branch .complement l _ _) => !r.holdsAt inside fuel l
    | some (.branch .and l right _) =>
      r.holdsAt inside fuel l && (right.map (r.holdsAt inside fuel)).getD true
    | some (.branch .or l right _) =>
      r.holdsAt inside fuel l || (right.map (r.holdsAt inside fuel)).getD false

/-- Whether a point lies in the region, given on which sides it lies. -/
def holds (r : Region) (inside : Side → Bool) : Bool := r.holdsAt inside r.size r.root

/-! ## Text -/

def textAt (r : Region) : (fuel : Nat) → Nat → String
  | 0, _ => "?"
  | fuel + 1, id =>
    match r.node? id with
    | none => "?"
    | some (.unit s _) => s.text
    | some (.branch .complement l _ _) => "#" ++ r.textAt fuel l
    | some (.branch op l right _) =>
      "(" ++ r.textAt fuel l ++ (if op = .and then " * " else " : ") ++
        (right.map (r.textAt fuel)).getD "" ++ ")"

/-- The region in full parentheses. -/
def text (r : Region) : String := r.textAt r.size r.root

end Region

end TransportDeck
