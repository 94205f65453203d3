import TransportDeck.Node.Reconcile

/-!
# Surfaces

A surface record: perhaps a mark for a special boundary, the number, perhaps a transformation, the
type and its constants.
-/

namespace TransportDeck

structure SurfaceRecord where
  leading : Option Layout
  modifier : Option Field
  number : Field
  transform : Option Field
  type : Field
  constants : FieldList
deriving Repr

namespace SurfaceRecord

def numberValue (s : SurfaceRecord) : Int := s.number.toInt?.getD 0

def setNumber (s : SurfaceRecord) (n : Int) : SurfaceRecord :=
  { s with number := s.number.setValue (some (.int n)) }

/-- The type in upper case. -/
def typeName (s : SurfaceRecord) : String := Text.upperString (s.type.toText?.getD "")

def constantValues (s : SurfaceRecord) : List Float := s.constants.fields.filterMap Field.toReal?

def setConstants (t : Tolerance) (values : List Float) (s : SurfaceRecord) : SurfaceRecord :=
  { s with constants := s.constants.setValues t (values.map fun x => some (.real x)) }

def modifierText? (s : SurfaceRecord) : Option String := s.modifier.bind Field.toText?

def isReflecting (s : SurfaceRecord) : Bool := s.modifierText? == some "*"

def isWhite (s : SurfaceRecord) : Bool := s.modifierText? == some "+"

/-- The number of the transformation; a negative one names a periodic partner. -/
def transformNumber? (s : SurfaceRecord) : Option Int := s.transform.bind Field.toInt?

def render (t : Tolerance) (s : SurfaceRecord) : Rendered :=
  .ofText (layoutText s.leading) ++ renderField t s.modifier ++ s.number.render t ++
    renderField t s.transform ++ s.type.render t ++ s.constants.render t

/-- The mark before the number carries no layout. -/
def comments (s : SurfaceRecord) : List Comment :=
  layoutComments s.leading ++ s.number.comments ++
    fieldComments s.transform ++ s.type.comments ++ s.constants.comments

end SurfaceRecord

end TransportDeck
