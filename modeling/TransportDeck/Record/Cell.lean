import TransportDeck.Node.Parameters
import TransportDeck.Region.Written

/-!
# Cells

A cell record: its number, material, density, geometry and parameters. The region that the geometry
describes may be edited; until it is written into the geometry it is pending, and the text of the
record already shows it.
-/

namespace TransportDeck

structure CellRecord where
  leading : Option Layout
  number : Field
  material : Field
  /-- A cell of void has none. -/
  density : Option Field
  geometry : Geometry
  parameters : Parameters
  /-- The region of the cell, if it has been asked for or replaced. -/
  pending : Option Region
deriving Repr

namespace CellRecord

def numberValue (c : CellRecord) : Int := c.number.toInt?.getD 0

/-- Renumbers the cell, and its pending region with it. -/
def setNumber (c : CellRecord) (n : Int) : CellRecord :=
  { c with
    number := c.number.setValue (some (.int n))
    pending := c.pending.map (·.setCell (some n)) }

/-- The number of the material, zero for void. -/
def materialNumber (c : CellRecord) : Int := c.material.toInt?.getD 0

def isVoid (c : CellRecord) : Bool := c.materialNumber == 0

/-- The density without its sign, and whether it counts atoms. -/
def densityValue? (c : CellRecord) : Option (Float × Bool) := do
  let f ← c.density
  let x ← f.value.bind Value.toReal?
  return (x, !f.negative)

/-- Sets the density of a cell that is not void. -/
def setDensity (c : CellRecord) (density : Float) (byAtoms : Bool) : CellRecord :=
  { c with
    density := c.density.map fun f =>
      (f.setValue (some (.real density.abs))).setNegative !byAtoms }

def setParameters (c : CellRecord) (ps : Parameters) : CellRecord := { c with parameters := ps }

/-! ## The region -/

/-- The region that the geometry describes, as one of this cell. -/
def readRegion (c : CellRecord) : Except RegionError Region :=
  (Region.ofGeometry c.geometry).map (·.setCell (some c.numberValue))

/-- The region of the cell as it stands after its edits. -/
def region (c : CellRecord) : Except RegionError Region :=
  match c.pending with
  | some r => .ok r
  | none => c.readRegion

/-- Replaces the region. One of another cell is taken over without its links to that cell. -/
def setRegion (c : CellRecord) (r : Region) : CellRecord :=
  let own := if r.cell == some c.numberValue then r else r.detached
  { c with pending := some (own.setCell (some c.numberValue)) }

/-- Changes the region as it stands. -/
def editRegion (f : Region → Region) (c : CellRecord) : Except RegionError CellRecord :=
  c.region.map fun r => { c with pending := some (f r) }

/-- Makes the region pending, so that later edits start from it. -/
def openRegion (c : CellRecord) : Except RegionError CellRecord := c.editRegion id

/-- The geometry with the pending region written into it. -/
def writtenGeometry (c : CellRecord) : Geometry :=
  match c.pending with
  | some r => r.writeInto c.geometry
  | none => c.geometry

/-- Writes the pending region into the geometry and reads it anew. The error is that of reading;
the geometry has been written all the same. -/
def sync (c : CellRecord) : CellRecord × Option RegionError :=
  match c.pending with
  | none => (c, none)
  | some _ =>
    let written := { c with geometry := c.writtenGeometry, pending := none }
    match written.readRegion with
    | .ok r => ({ written with pending := some r }, none)
    | .error e => (written, some e)

/-! ## Text -/

def render (t : Tolerance) (c : CellRecord) : Rendered :=
  .ofText (layoutText c.leading) ++ c.number.render t ++ c.material.render t ++
    renderField t c.density ++ c.writtenGeometry.render t ++ c.parameters.render t

/-- The comments that are also among others, each as often as there. -/
def keepAmong (others : List Comment) : List Comment → List Comment
  | [] => []
  | c :: cs => if others.contains c then c :: keepAmong (others.erase c) cs
    else keepAmong others cs

/-- Of the comments in the geometry, those that a pending region leaves. -/
def geometryComments (c : CellRecord) : List Comment :=
  match c.pending with
  | some _ => keepAmong c.writtenGeometry.comments c.geometry.comments
  | none => c.geometry.comments

def comments (c : CellRecord) : List Comment :=
  layoutComments c.leading ++ c.number.comments ++ c.material.comments ++
    fieldComments c.density ++ c.geometryComments ++ c.parameters.comments

end CellRecord

end TransportDeck
