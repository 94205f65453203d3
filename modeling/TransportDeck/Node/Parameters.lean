import TransportDeck.Node.Classifier
import TransportDeck.Node.Reconcile

/-!
# Parameters

The pairs `key=values` at the end of a record, in the order in which they stand there. An index
from keys to places answers look-ups; a parameter is found under the key it was inserted with.
-/

namespace TransportDeck

structure Parameter where
  classifier : Classifier
  /-- The equals sign and the layout behind it, unless only blanks stand there. -/
  separator : Option Layout
  values : FieldList
deriving Repr

namespace Parameter

/-- Every value but the last gets a gap behind it, if it has no layout. -/
def spaceOut : List Field → List Field
  | [] => []
  | [f] => [f]
  | f :: fs => (if f.layout.isNone then f.withLayout .gap else f) :: spaceOut fs

/-- A parameter that was not read, with an equals sign before its values. -/
def ofValues (classifier : Classifier) (values : List Field) : Parameter :=
  ⟨classifier, some (.ofLiteral "="), (spaceOut values).foldl FieldList.pushField .empty⟩

def key (p : Parameter) : String := p.classifier.key

def hasEquals (p : Parameter) : Bool :=
  match p.separator with
  | some l => l.pieces.any (·.text == "=")
  | none => false

def first? (p : Parameter) : Option Field := p.values.get? 0

def lastLayout (p : Parameter) : Layout := (p.values.last?.bind (·.layout)).getD .empty

def setTail (p : Parameter) (l : Layout) : Parameter := { p with values := p.values.setTail l }

def hasOpenComment (p : Parameter) : Bool :=
  if p.values.tailOrEmpty.isEmpty then p.lastLayout.hasOpenComment
  else p.values.tailOrEmpty.hasOpenComment

/-- Makes room for another parameter: ends an open comment, or puts a blank where there is no
layout at all. -/
def closed (p : Parameter) : Parameter :=
  if p.hasOpenComment then p.setTail p.values.tailOrEmpty.closeComment
  else if p.values.tailOrEmpty.isEmpty && p.lastLayout.isEmpty then
    p.setTail (p.values.tailOrEmpty.pushText " ")
  else p

def render (t : Tolerance) (p : Parameter) : Rendered :=
  p.classifier.render t ++ .ofText (layoutText p.separator) ++ p.values.render t

def comments (p : Parameter) : List Comment :=
  p.classifier.comments ++ layoutComments p.separator ++ p.values.comments

end Parameter

/-- A key that is there already. -/
structure DuplicateParameter where
  key : String
deriving Repr, DecidableEq

def DuplicateParameter.message (d : DuplicateParameter) : String :=
  "Parameter '" ++ d.key ++ "' is given more than once"

structure Parameters where
  params : List Parameter
  /-- The places of the parameters by the keys they were inserted with. -/
  index : List (String × Nat)
deriving Repr

namespace Parameters

def empty : Parameters := ⟨[], []⟩

def keys (ps : Parameters) : List String := ps.params.map Parameter.key

def size (ps : Parameters) : Nat := ps.params.length

def isEmpty (ps : Parameters) : Bool := ps.params.isEmpty

def place? (ps : Parameters) (key : String) : Option Nat := ps.index.lookup key

def mapLast (g : Parameter → Parameter) : List Parameter → List Parameter
  | [] => []
  | [p] => [g p]
  | p :: ps => p :: mapLast g ps

/-- Appends a parameter, unless its key is there already. -/
def insert (ps : Parameters) (p : Parameter) : Except DuplicateParameter Parameters :=
  if (ps.place? p.key).isSome then .error ⟨p.key⟩
  else .ok ⟨mapLast Parameter.closed ps.params ++ [p], ps.index ++ [(p.key, ps.params.length)]⟩

def find? (ps : Parameters) (text : String) : Option Nat := ps.place? (Classifier.keyOf text)

def contains (ps : Parameters) (text : String) : Bool := (ps.find? text).isSome

def get? (ps : Parameters) (text : String) : Option Parameter :=
  (ps.find? text).bind fun i => ps.params[i]?

/-- Changes the parameter found under a key; the index stays as it is. -/
def modify (ps : Parameters) (text : String) (g : Parameter → Parameter) : Parameters :=
  match ps.find? text with
  | some i => { ps with params := ps.params.modify i g }
  | none => ps

/-- Replaces the values of a parameter. -/
def setValues (t : Tolerance) (text : String) (values : List (Option Value)) (ps : Parameters) :
    Parameters :=
  ps.modify text fun p => { p with values := p.values.setValues t values }

/-- Renumbers a parameter, which is still found under its old key. -/
def setNumber (ps : Parameters) (text : String) (n : Int) : Parameters :=
  ps.modify text fun p => { p with classifier := p.classifier.setNumber n }

/-- Adds to the layout behind a parameter. -/
def addLayout (ps : Parameters) (text : String) (l : Layout) : Parameters :=
  ps.modify text fun p => p.setTail (p.values.tailOrEmpty ++ l)

/-- Removes the entry of a key and moves the places behind it down. -/
def dropPlace (key : String) (place : Nat) (index : List (String × Nat)) : List (String × Nat) :=
  (index.filter (·.1 != key)).map fun e => (e.1, if e.2 > place then e.2 - 1 else e.2)

def remove? (ps : Parameters) (text : String) : Option (Parameter × Parameters) := do
  let key := Classifier.keyOf text
  let i ← ps.place? key
  let p ← ps.params[i]?
  return (p, ⟨ps.params.eraseIdx i, dropPlace key i ps.index⟩)

def render (t : Tolerance) (ps : Parameters) : Rendered :=
  Rendered.concat (ps.params.map (Parameter.render t))

def comments (ps : Parameters) : List Comment := ps.params.flatMap Parameter.comments

end Parameters

end TransportDeck
