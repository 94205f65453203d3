import TransportDeck.Node.Shorthand

/-!
# Lists of fields

A list of values in which shorthand runs stand for several values each, and the layout behind the
last one.
-/

namespace TransportDeck

inductive Item where
  | field (f : Field)
  | run (s : Shorthand)
deriving Repr

namespace Item

/-- The values that an item stands for. -/
def fields : Item → List Field
  | field f => [f]
  | run s => s.members

def render (t : Tolerance) : Item → Rendered
  | field f => f.render t
  | run s => s.render t

def comments : Item → List Comment
  | field f => f.comments
  | run s => s.comments

def trailing? : Item → Option Layout
  | field f => f.layout
  | run s => s.trailing?

def setTrailing (l : Option Layout) : Item → Item
  | field f => field (f.setLayout l)
  | run s => run (s.setTrailing l)

def shorthand? : Item → Option Shorthand
  | run s => some s
  | field _ => none

end Item

structure FieldList where
  items : List Item
  tail : Option Layout
  nextId : Nat
  /-- After an edit, neighbours need a gap between them. -/
  rebuilt : Bool
deriving Repr

namespace FieldList

def empty : FieldList := ⟨[], none, 0, false⟩

/-- Counts up the number for the next run. -/
def takeId (l : FieldList) : FieldList := { l with nextId := l.nextId + 1 }

def pushField (l : FieldList) (f : Field) : FieldList := { l with items := l.items ++ [.field f] }

def pushRun (l : FieldList) (s : Shorthand) : FieldList :=
  { l with items := l.items ++ [.run s], nextId := max l.nextId (s.id + 1) }

/-- The last item, if it is a plain field, and the list without it. -/
def popField? (l : FieldList) : Option (Field × FieldList) :=
  match l.items.getLast? with
  | some (.field f) => some (f, { l with items := l.items.dropLast })
  | _ => none

def endsWithRun (l : FieldList) : Bool :=
  match l.items.getLast? with
  | some (.run _) => true
  | _ => false

def isEmpty (l : FieldList) : Bool := l.items.isEmpty

/-- All values in order, those of the runs among them. -/
def fields (l : FieldList) : List Field := l.items.flatMap Item.fields

def size (l : FieldList) : Nat := l.fields.length

def get? (l : FieldList) (i : Nat) : Option Field := l.fields[i]?

def last? (l : FieldList) : Option Field := l.fields.getLast?

/-- The values with their signs; a place left open has none. -/
def values (l : FieldList) : List (Option Value) := l.fields.map Field.signed

/-! ## Layout behind the list -/

def tailOrEmpty (l : FieldList) : Layout := l.tail.getD .empty

def setTail (l : FieldList) (t : Layout) : FieldList := { l with tail := some t }

def mapLastItem (g : Item → Item) (l : FieldList) : FieldList :=
  match l.items.getLast? with
  | some i => { l with items := l.items.dropLast ++ [g i] }
  | none => l

/-- Moves the layout behind the last item to the list itself. -/
def detachTail (l : FieldList) : FieldList :=
  match l.items.getLast?.bind Item.trailing? with
  | some layout => (l.mapLastItem (·.setTrailing none)).setTail (l.tailOrEmpty ++ layout)
  | none => l

/-! ## Writing -/

def startsBlank (text : String) : Bool := (text.toList.head?.map Text.isBlank).getD true

def endsBlank (text : String) : Bool := (text.toList.getLast?.map Text.isBlank).getD true

/-- A gap goes between two texts that would touch. -/
def addPart (spaced : Bool) (out part : Rendered) : Rendered :=
  if spaced && !startsBlank part.text && !endsBlank out.text then out ++ .ofText " " ++ part
  else out ++ part

def render (t : Tolerance) (l : FieldList) : Rendered :=
  (l.items.map (Item.render t)).foldl (addPart l.rebuilt) .empty ++ .ofText (layoutText l.tail)

def comments (l : FieldList) : List Comment :=
  l.items.flatMap Item.comments ++ layoutComments l.tail

end FieldList

end TransportDeck
