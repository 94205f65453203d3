import TransportDeck.Node.Layout
import TransportDeck.Node.Value

/-!
# Fields

A field is a value in its place: the token it was read from, if any, the value it has now, and the
layout behind it. Where a sign is a flag of its own, as for a surface or a weight fraction, the
field holds the magnitude and the flag apart.
-/

namespace TransportDeck

/-- Whether the sign of a number is kept apart from it. -/
structure SignFlag where
  identifier : Bool
  fraction : Bool
deriving Repr, DecidableEq

def SignFlag.apart (f : SignFlag) : Bool := f.identifier || f.fraction

structure Field where
  token : Option String
  value : Option Value
  /-- The value that the token had when it was read. -/
  asRead : Option Value
  kind : ValueKind
  layout : Option Layout
  signFlag : SignFlag
  negative : Bool
  neverPadded : Bool
deriving Repr

namespace Field

def readValue? (kind : ValueKind) (token : String) : Option Value :=
  match kind with
  | .int => (Number.readInt? token).map .int
  | .real => (Number.readReal? token).map .real
  | .text => some (.text token)

/-- A token read as a value of a kind. -/
def parse? (token : String) (kind : ValueKind) (layout : Option Layout) : Option Field :=
  (readValue? kind token).map fun v =>
    ⟨some token, some v, some v, kind, layout, ⟨false, false⟩, false, false⟩

/-- A value that was not read from a token. -/
def new (value : Option Value) (kind : ValueKind) : Field :=
  ⟨none, value.map (·.coerce kind), none, kind, none, ⟨false, false⟩, false, false⟩

def int (n : Int) : Field := new (some (.int n)) .int

def real (x : Float) : Field := new (some (.real x)) .real

def text (s : String) : Field := new (some (.text s)) .text

/-- A place left open by a jump. -/
def jump : Field := { new none .real with neverPadded := true }

def withLayout (f : Field) (l : Layout) : Field := { f with layout := some l }

def neverPad (f : Field) : Field := { f with neverPadded := true }

/-! ## Values -/

/-- The value with its sign. -/
def signed (f : Field) : Option Value :=
  if f.signFlag.apart && f.negative then f.value.map Value.negate else f.value

def toReal? (f : Field) : Option Float := f.signed.bind Value.toReal?

def toInt? (f : Field) : Option Int := f.signed.bind Value.toInt?

def toText? (f : Field) : Option String := f.value.bind Value.toText?

def isJump (f : Field) : Bool := f.value.isNone

/-- The value as the field keeps it: of its kind, and without a sign that is kept apart. -/
def kept (f : Field) (v : Value) : Value :=
  let v := v.coerce f.kind
  if f.signFlag.apart then v.magnitude else v

/-- Sets the value. A place that was open gets a gap behind it. -/
def setValue (f : Field) (value : Option Value) : Field :=
  let opened := f.value.isNone && value.isSome && !f.neverPadded && f.layout.isNone
  { f with
    value := value.map f.kept
    layout := if opened then some .gap else f.layout }

def splitSign (f : Field) : Field :=
  match f.value with
  | some v => { f with negative := v.isNegative, value := some v.magnitude }
  | none => f

/-- From now on the sign of the number is a flag: the side of a surface. -/
def asSignedIdentifier (f : Field) : Field :=
  { f with signFlag := { f.signFlag with identifier := true } }.splitSign

/-- From now on the sign of the number is a flag: which fraction or density it is. -/
def asSignedFraction (f : Field) : Field :=
  { f with signFlag := { f.signFlag with fraction := true } }.splitSign

def setNegative (f : Field) (negative : Bool) : Field := { f with negative := negative }

/-! ## Layout -/

def setLayout (f : Field) (l : Option Layout) : Field := { f with layout := l }

def mapLayout (f : Field) (g : Layout → Layout) : Field := { f with layout := f.layout.map g }

def layoutOrEmpty (f : Field) : Layout := f.layout.getD .empty

def comments (f : Field) : List Comment := layoutComments f.layout

/-- Whether the value differs from the one that was read. -/
def hasChanged (t : Tolerance) (f : Field) : Bool :=
  match f.signed, f.asRead with
  | none, none => false
  | some a, some b => !a.close t b
  | _, _ => true

/-- Same value within the standard tolerance, whatever the tokens are. -/
def sameValue (a b : Field) : Bool :=
  match a.signed, b.signed with
  | some x, some y => x.close .standard y
  | none, none => true
  | _, _ => false

end Field

/-- The comments of a field that may be missing. -/
def fieldComments (f : Option Field) : List Comment := (f.map Field.comments).getD []

end TransportDeck
