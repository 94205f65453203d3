import TransportDeck.Node.Geometry
import TransportDeck.Region.Algebra

/-!
# Regions as written

A region is read off the geometry of a cell, through parentheses and with runs spelled out. Writing
a region into a geometry uses the entries that its nodes came from again, each at most once, and
makes new ones for the rest; parentheses are added only where precedence needs them.
-/

namespace TransportDeck

/-! ## Reading -/

/-- The numbers that a run of surfaces stands for. -/
def Shorthand.numbers (s : Shorthand) : List Int := s.members.filterMap Field.toInt?

namespace Region

def leafNumber (f : Field) (id : Nat) : Except RegionError Int :=
  match f.toInt? with
  | some n => .ok n
  | none => .error (.notInteger id)

/-- The intersection of sides as a chain behind other nodes: all nodes and the place of the top. -/
def pushRun (nodes : Array RegionNode) : List Int → Option (Array RegionNode × Nat)
  | [] => none
  | n :: ns =>
    some <| ns.foldl
      (fun (nodes, top) n =>
        ((nodes.push (.unit (.surface n) none)).push
          (.branch .and top (some nodes.size) none), nodes.size + 1))
      (nodes.push (.unit (.surface n) none), nodes.size)

def setOriginAt (nodes : Array RegionNode) (id origin : Nat) : Array RegionNode :=
  nodes.modify id (·.setOrigin (some origin))

/-- Reads an entry behind other nodes: all nodes and the place of the new one. -/
def readEntry (g : Geometry) : (fuel : Nat) → Nat → Array RegionNode →
    Except RegionError (Array RegionNode × Nat)
  | 0, id, _ => .error (.unknownEntry id)
  | fuel + 1, id, nodes =>
    match g.entry? id with
    | none => .error (.unknownEntry id)
    | some (.leaf f) => do
      let n ← leafNumber f id
      return (nodes.push (.unit (.surface n) (some id)), nodes.size)
    | some (.run s) =>
      match pushRun nodes s.numbers with
      | none => .error .emptyRun
      | some (nodes, top) => .ok (setOriginAt nodes top id, top)
    | some (.branch b) =>
      match b.op with
      | .group => do
        let (nodes, inner) ← readEntry g fuel b.left nodes
        return (setOriginAt nodes inner id, inner)
      | .complement => do
        let (nodes, operand) ← match g.entry? b.left with
          | some (.leaf f) => do
            let n ← leafNumber f b.left
            pure (nodes.push (.unit (.cell n) (some b.left)), nodes.size)
          | _ => readEntry g fuel b.left nodes
        return (nodes.push (.branch .complement operand none (some id)), nodes.size)
      | .intersection | .union =>
        match b.right with
        | none => .error (.oneOperand id)
        | some right => do
          let (nodes, l) ← readEntry g fuel b.left nodes
          let (nodes, r) ← readEntry g fuel right nodes
          let op : RegionOp := if b.op = .union then .or else .and
          return (nodes.push (.branch op l (some r) (some id)), nodes.size)

/-- The region that a geometry describes. -/
def ofGeometry (g : Geometry) : Except RegionError Region :=
  if g.isEmpty then .error .noEntries
  else do
    let (nodes, root) ← readEntry g g.size g.root #[]
    return ⟨nodes, root, none⟩

/-! ## Writing -/

/-- A geometry that is being written, and its entries that are in use. -/
structure Draft where
  geometry : Geometry
  claimed : List Nat

/-- An entry behind parentheses. -/
def peel (g : Geometry) : (fuel : Nat) → Nat → Nat
  | 0, id => id
  | fuel + 1, id =>
    match g.entry? id with
    | some (.branch b) => if b.op = .group then peel g fuel b.left else id
    | _ => id

def isGroup (g : Geometry) (id : Nat) : Bool :=
  match g.entry? id with
  | some (.branch b) => b.op = .group
  | _ => false

def Draft.push (d : Draft) (e : GeometryEntry) : Nat × Draft :=
  (d.geometry.size, { d with geometry := d.geometry.push e })

def Draft.wrap (d : Draft) (id : Nat) : Nat × Draft :=
  d.push (.branch (.group (.ofLiteral "(") id (.ofLiteral ")")))

/-- Puts an entry in parentheses unless it is in some already. -/
def Draft.wrapUnlessGroup (d : Draft) (id : Nat) : Nat × Draft :=
  if isGroup d.geometry id then (id, d) else d.wrap id

def newLeaf (s : Side) : GeometryEntry :=
  .leaf ((Field.int s.divider).asSignedIdentifier.setNegative (!s.positive))

def setLeaf (s : Side) : GeometryEntry → GeometryEntry
  | .leaf f => .leaf ((f.setValue (some (.int s.divider))).setNegative (!s.positive))
  | e => e

def setOperands (op : GeometryOp) (left right : Nat) : GeometryEntry → GeometryEntry
  | .branch b => .branch (Branch.switchTo { b with left, right := some right } op)
  | e => e

def setOperand (operand : Nat) : GeometryEntry → GeometryEntry
  | .branch b => .branch { b with left := operand }
  | e => e

def isCellAt (r : Region) (id : Nat) : Bool :=
  match r.node? id with
  | some (.unit s _) => s.isCell
  | _ => false

def isUnionAt (r : Region) (id : Nat) : Bool :=
  match r.node? id with
  | some (.branch .or ..) => true
  | _ => false

/-- The surface numbers of a node that is an intersection of surfaces. -/
def plainRun? (r : Region) : (fuel : Nat) → Nat → Option (List Int)
  | 0, _ => none
  | fuel + 1, id =>
    match r.node? id with
    | some (.unit s _) => if s.isCell then none else some [s.signed]
    | some (.branch .and l (some right) _) => do
      let a ← r.plainRun? fuel l
      let b ← r.plainRun? fuel right
      return a ++ b
    | _ => none

/-- The entry that a node came from, if it is there and not in use. -/
def Draft.claim (d : Draft) (origin : Option Nat) : Option Nat × Draft :=
  match origin with
  | some o =>
    if o < d.geometry.size && !d.claimed.contains o then
      (some o, { d with claimed := o :: d.claimed })
    else (none, d)
  | none => (none, d)

/-- The entry to write a node into: the origin, and what stands there behind parentheses. -/
structure Target where
  origin : Nat
  place : Nat

def Draft.target? (d : Draft) (origin : Option Nat) : Option Target :=
  origin.map fun o => ⟨o, peel d.geometry d.geometry.size o⟩

def Draft.entryAt? (d : Draft) (t : Option Target) : Option GeometryEntry :=
  t.bind fun t => d.geometry.entry? t.place

/-- Whether a node is still the run that was written at its target. -/
def isKeptRun (r : Region) (id : Nat) (d : Draft) (t : Target) : Bool :=
  match d.geometry.entry? t.place with
  | some (.run s) => r.plainRun? r.size id == some s.numbers
  | _ => false

def Draft.modify (d : Draft) (place : Nat) (f : GeometryEntry → GeometryEntry) : Draft :=
  { d with geometry := d.geometry.modify place f }

def writeSide (s : Side) (t : Option Target) (d : Draft) : Nat × Draft :=
  match t, d.entryAt? t with
  | some t, some (.leaf _) => (t.origin, d.modify t.place (setLeaf s))
  | _, _ => d.push (newLeaf s)

def writeComplement (operand : Nat) (t : Option Target) (d : Draft) : Nat × Draft :=
  match t, d.entryAt? t with
  | some t, some (.branch b) =>
    if b.op = .complement then (t.origin, d.modify t.place (setOperand operand))
    else d.push (.branch (.complement (.ofLiteral "#") operand))
  | _, _ => d.push (.branch (.complement (.ofLiteral "#") operand))

def freshBinary (op : RegionOp) (left right : Nat) : GeometryEntry :=
  .branch <| match op with
    | .or => .binary .union left (.ofLiteral ":") right
    | _ => .binary .intersection left .gap right

def writeBinary (op : RegionOp) (left right : Nat) (t : Option Target) (d : Draft) :
    Nat × Draft :=
  let written : GeometryOp := if op = .or then .union else .intersection
  match t, d.entryAt? t with
  | some t, some (.branch b) =>
    if b.op.isBinary then (t.origin, d.modify t.place (setOperands written left right))
    else d.push (freshBinary op left right)
  | _, _ => d.push (freshBinary op left right)

/-- Parentheses go around a union that is an operand of an intersection. -/
def wrapOperand (r : Region) (op : RegionOp) (id : Nat) (written : Nat × Draft) : Nat × Draft :=
  if op = .and && r.isUnionAt id then written.2.wrapUnlessGroup written.1 else written

/-- Parentheses go around a complemented operand that is no cell. -/
def wrapComplemented (r : Region) (id : Nat) (written : Nat × Draft) : Nat × Draft :=
  if r.isCellAt id then written else written.2.wrapUnlessGroup written.1

/-- Writes a node: the place of its entry, and the geometry with it. -/
def emit (r : Region) : (fuel : Nat) → Nat → Draft → Nat × Draft
  | 0, _, d => (d.geometry.root, d)
  | fuel + 1, id, d =>
    match r.node? id with
    | none => (d.geometry.root, d)
    | some n =>
      let (origin, d) := d.claim n.origin
      let t := d.target? origin
      match t.filter (r.isKeptRun id d) with
      | some t => (t.origin, d)
      | none =>
        match n with
        | .unit s _ => writeSide s t d
        | .branch .complement l _ _ =>
          let (operand, d) := r.wrapComplemented l (r.emit fuel l d)
          writeComplement operand t d
        | .branch op l right _ =>
          let (left, d) := r.wrapOperand op l (r.emit fuel l d)
          match right with
          | none => (left, d)
          | some right =>
            let (right, d) := r.wrapOperand op right (r.emit fuel right d)
            writeBinary op left right t d

/-- Writes the region into a geometry. -/
def writeInto (r : Region) (g : Geometry) : Geometry :=
  let (root, d) := r.emit r.size r.root ⟨g, []⟩
  d.geometry.setRoot root

/-- The region written from scratch. -/
def toGeometry (r : Region) : Geometry := r.writeInto .empty

end Region

end TransportDeck
