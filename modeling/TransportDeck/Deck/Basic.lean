import TransportDeck.Deck.DeckError
import TransportDeck.Record.Basic

/-!
# Decks

A deck as it has been understood: its records in order, the warnings about it and the cards that
were rejected. It can be edited record by record and written back.
-/

namespace TransportDeck

/-- A record and the place of its card. -/
structure DeckRecord where
  block : Block
  path : String
  firstLine : Nat
  depth : Nat
  record : Record
deriving Repr

namespace DeckRecord

def of (c : Card) (r : Record) : DeckRecord := ⟨c.block, c.path, c.firstLine, c.depth, r⟩

/-- Whether the record stands in the file of the deck itself. -/
def isOwn (r : DeckRecord) : Bool := r.depth == 0

end DeckRecord

structure Deck where
  message : Option (List String)
  title : String
  records : List DeckRecord
  warnings : List Warning
  errors : List Rejection
  /-- Whether a blank line closes the data block. -/
  terminated : Bool
  version : Version
  /-- Values this close to what was read keep their text. -/
  tolerance : Tolerance

namespace Deck

def hasErrors (d : Deck) : Bool := !d.errors.isEmpty

/-! ## Looking up -/

def cells (d : Deck) : List CellRecord := d.records.filterMap (·.record.cell?)

def surfaces (d : Deck) : List SurfaceRecord := d.records.filterMap (·.record.surface?)

def dataRecords (d : Deck) : List DataRecord := d.records.filterMap (·.record.data?)

/-- The first cell with a number. -/
def cell? (d : Deck) (number : Int) : Option CellRecord :=
  d.cells.find? (·.numberValue == number)

def surface? (d : Deck) (number : Int) : Option SurfaceRecord :=
  d.surfaces.find? (·.numberValue == number)

/-- The cell that a region belongs to. -/
def owner? (d : Deck) (r : Region) : Option CellRecord := r.cell.bind d.cell?

/-! ## Editing -/

/-- Changes the first cell with a number. -/
def modifyCellIn (number : Int) (f : CellRecord → CellRecord) : List DeckRecord → List DeckRecord
  | [] => []
  | r :: rs =>
    match r.record.cell? with
    | some c =>
      if c.numberValue == number then { r with record := .cell (f c) } :: rs
      else r :: modifyCellIn number f rs
    | none => r :: modifyCellIn number f rs

def modifyCell (d : Deck) (number : Int) (f : CellRecord → CellRecord) : Deck :=
  { d with records := modifyCellIn number f d.records }

def renumberCell (d : Deck) (number new : Int) : Deck := d.modifyCell number (·.setNumber new)

def setRecord (d : Deck) (index : Nat) (r : Record) : Deck :=
  { d with records := d.records.modify index fun old => { old with record := r } }

/-! ## Writing -/

def ownCount (d : Deck) (b : Block) : Nat := d.records.countP fun r => r.isOwn && r.block = b

/-- The own records as they are written, with their blocks. -/
def rendered (d : Deck) : List (Block × Rendered) :=
  (d.records.filter (·.isOwn)).map fun r => (r.block, r.record.render d.tolerance)

def textsIn (b : Block) (rs : List (Block × Rendered)) : List String :=
  (rs.filter (·.1 = b)).map (·.2.text)

/-- The front of the deck and the given records. -/
def textWith (d : Deck) (rs : List (Block × Rendered)) : DeckText :=
  ⟨d.message, d.title, textsIn .cell rs, textsIn .surface rs, textsIn .data rs, d.terminated⟩

def text (d : Deck) : DeckText := d.textWith d.rendered

/-- The deck as a whole, with all warnings raised while it is written. -/
def write (d : Deck) : Except DeckError Rendered :=
  match LineWidth.ofVersion d.version with
  | .ok w =>
    let rs := d.rendered
    let laidOut := (d.textWith rs).layOut w
    .ok ⟨laidOut.text, rs.flatMap (·.2.warnings) ++ laidOut.warnings⟩
  | .error e => .error (.writing e)

end Deck

end TransportDeck
