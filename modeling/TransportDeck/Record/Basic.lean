import TransportDeck.Input.Card
import TransportDeck.Record.Cell
import TransportDeck.Record.Data
import TransportDeck.Record.Surface

/-!
# Records

What a card says, with all of its layout, so that the text can be given back. A card that no grammar
covers is kept verbatim.
-/

namespace TransportDeck

/-- A record that asks for another file. -/
structure ReadRecord where
  leading : Option Layout
  keyword : Field
  parameters : Parameters
deriving Repr

namespace ReadRecord

def file? (r : ReadRecord) : Option String :=
  ((r.parameters.get? "file").bind Parameter.first?).bind Field.toText?

def render (t : Tolerance) (r : ReadRecord) : Rendered :=
  .ofText (layoutText r.leading) ++ r.keyword.render t ++ r.parameters.render t

def comments (r : ReadRecord) : List Comment :=
  layoutComments r.leading ++ r.keyword.comments ++ r.parameters.comments

end ReadRecord

/-- A record kept as its text, and its name if it has one. -/
structure VerbatimRecord where
  text : String
  name : Option String
deriving Repr, DecidableEq

namespace VerbatimRecord

/-- The name of a record in lower case: the letters behind blanks and marks. -/
def nameOf? (text : String) : Option String :=
  let letters := ((Text.trimStart text.toList).dropWhile fun c => c == '*' || c == '+').takeWhile
    Char.isAlpha
  if letters.isEmpty then none else some (String.ofList (Text.lower letters))

def ofText (text : String) : VerbatimRecord := ⟨text, nameOf? text⟩

end VerbatimRecord

inductive Record where
  | cell (c : CellRecord)
  | surface (s : SurfaceRecord)
  | data (d : DataRecord)
  | read (r : ReadRecord)
  | verbatim (v : VerbatimRecord)
deriving Repr

namespace Record

def kindName : Record → String
  | cell _ => "cell"
  | surface _ => "surface"
  | data _ => "data"
  | read _ => "read"
  | verbatim _ => "opaque"

/-- The block that a record of this kind stands in, if only one is possible. -/
def block? : Record → Option Block
  | cell _ => some .cell
  | surface _ => some .surface
  | data _ => some .data
  | read _ | verbatim _ => none

def cell? : Record → Option CellRecord
  | cell c => some c
  | _ => none

def surface? : Record → Option SurfaceRecord
  | surface s => some s
  | _ => none

def data? : Record → Option DataRecord
  | data d => some d
  | _ => none

def isVerbatim : Record → Bool
  | verbatim _ => true
  | _ => false

def render (t : Tolerance) : Record → Rendered
  | cell c => c.render t
  | surface s => s.render t
  | data d => d.render t
  | read r => r.render t
  | verbatim v => .ofText v.text

/-- The text of a record, written with the standard tolerance. -/
def text (r : Record) : String := (r.render .standard).text

def comments : Record → List Comment
  | cell c => c.comments
  | surface s => s.comments
  | data d => d.comments
  | read r => r.comments
  | verbatim _ => []

end Record

end TransportDeck
