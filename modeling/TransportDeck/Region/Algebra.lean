import TransportDeck.Region.Basic

/-!
# The algebra of regions

Intersection, union and complement. Every operation copies the nodes of its operands behind one
another into a single arena and puts a new operator on top, so no two operators share an operand.
-/

namespace TransportDeck.Region

/-! ## Copying -/

/-- The place that each node on a walk gets, if the first one is put at `start`. -/
def placeTable (size start : Nat) (order : List Nat) : Array (Option Nat) :=
  (order.zipIdx start).foldl (fun table (old, new) => table.modify old fun _ => some new)
    (Array.replicate size none)

def placeIn (table : Array (Option Nat)) (id : Nat) : Nat := (table[id]?.getD none).getD 0

def copyNode (table : Array (Option Nat)) (keepOrigins : Bool) (n : RegionNode) : RegionNode :=
  let n := n.renumber (placeIn table)
  if keepOrigins then n else n.setOrigin none

/-- Copies the nodes below the root behind others. Gives all nodes, the place of the root, and the
new place of each old node. -/
def copyBehind (r : Region) (nodes : Array RegionNode) (keepOrigins : Bool) :
    Array RegionNode × Nat × Array (Option Nat) :=
  let order := r.walk
  let table := placeTable r.size nodes.size order
  let copies := order.filterMap fun id => (r.node? id).map (copyNode table keepOrigins)
  (nodes ++ copies.toArray, placeIn table r.root, table)

/-- The region in an arena without other nodes, and the new place of each old node. -/
def compactWithTable (r : Region) : Region × Array (Option Nat) :=
  let (nodes, root, table) := r.copyBehind #[] true
  (⟨nodes, root, r.cell⟩, table)

def compact (r : Region) : Region := r.compactWithTable.1

/-- A copy that belongs to no cell and remembers no entries. -/
def detached (r : Region) : Region :=
  let (nodes, root, _) := r.copyBehind #[] false
  ⟨nodes, root, none⟩

/-- Copies another region behind this one; origins are kept only within one cell. -/
def append (r other : Region) : Region × Nat :=
  let sameCell := r.cell.isSome && r.cell == other.cell
  let (nodes, root, _) := other.copyBehind r.nodes sameCell
  ({ r with nodes }, root)

/-- Puts a node on top. -/
def pushRoot (r : Region) (n : RegionNode) : Region :=
  { r with nodes := r.nodes.push n, root := r.nodes.size }

/-! ## New regions -/

def combine (op : RegionOp) (a b : Region) : Region :=
  let left := a.compact
  let (both, right) := left.append b
  both.pushRoot (.branch op left.root (some right) none)

def and (a b : Region) : Region := combine .and a b

def or (a b : Region) : Region := combine .or a b

def complement (r : Region) : Region :=
  let inner := r.compact
  inner.pushRoot (.branch .complement inner.root none none)

/-! ## In place -/

/-- The last operand of the chain of one operator that starts at a node, and the node above it. -/
def chainEnd (r : Region) (op : RegionOp) :
    (fuel : Nat) → (parent : Option Nat) → Nat → Option Nat × Nat
  | 0, parent, id => (parent, id)
  | fuel + 1, parent, id =>
    match r.node? id with
    | some (.branch op' _ (some right) _) =>
      if op' = op then r.chainEnd op fuel (some id) right else (parent, id)
    | _ => (parent, id)

def setRight (right : Nat) : RegionNode → RegionNode
  | .branch op l _ o => .branch op l (some right) o
  | n => n

/-- Joins another region to the last operand of the chain of `op` at the root. -/
def graft (op : RegionOp) (a b : Region) : Region :=
  let (both, operand) := a.append b
  let (parent, last) := both.chainEnd op both.size none both.root
  let new := both.nodes.size
  let nodes := both.nodes.push (.branch op last (some operand) none)
  match parent with
  | some p => { both with nodes := nodes.modify p (setRight new) }
  | none => { both with nodes, root := new }

def andWith (a b : Region) : Region := graft .and a b

def orWith (a b : Region) : Region := graft .or a b

/-! ## Comparing -/

def sameAt (a b : Region) : (fuel : Nat) → Nat → Nat → Except RegionError Bool
  | 0, i, _ => .error (.unknownEntry i)
  | fuel + 1, i, j =>
    match a.node? i, b.node? j with
    | none, _ => .error (.unknownEntry i)
    | _, none => .error (.unknownEntry j)
    | some (.unit s _), some (.unit t _) => .ok (s = t)
    | some (.branch op l r _), some (.branch op' l' r' _) =>
      if op != op' || r.isSome != r'.isSome then .ok false
      else match sameAt a b fuel l l' with
        | .error e => .error e
        | .ok false => .ok false
        | .ok true => match r, r' with
          | some r, some r' => sameAt a b fuel r r'
          | _, _ => .ok true
    | some m, some n => .error (.incomparable m.kindName n.kindName)

/-- Whether two regions are built alike. A side cannot be compared with a combination. -/
def same (a b : Region) : Except RegionError Bool := sameAt a b a.size a.root b.root

end TransportDeck.Region
