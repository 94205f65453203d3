import TransportDeck.Node.NumberStyle

/-!
# Nuclides

The pairs of a material: a nuclide and how much of it there is. The sign of the amount says
whether it is counted by weight or by atoms, so it is kept apart from the number.
-/

namespace TransportDeck

structure Nuclide where
  id : Field
  amount : Field
deriving Repr

namespace Nuclide

def of (id amount : Field) : Nuclide := ⟨id, amount.asSignedFraction⟩

def name (n : Nuclide) : String := n.id.toText?.getD ""

/-- The amount without its sign. -/
def fraction (n : Nuclide) : Float := (n.amount.value.bind Value.toReal?).getD 0.0

def byWeight (n : Nuclide) : Bool := n.amount.negative

def setFraction (n : Nuclide) (fraction : Float) (byWeight : Bool) : Nuclide :=
  { n with amount := (n.amount.setValue (some (.real fraction.abs))).setNegative byWeight }

def render (t : Tolerance) (n : Nuclide) : Rendered := n.id.render t ++ n.amount.render t

def comments (n : Nuclide) : List Comment := n.id.comments ++ n.amount.comments

/-- Room for another pair: a blank, or the end of an open comment. -/
def closed (n : Nuclide) : Nuclide :=
  let l := n.amount.layoutOrEmpty
  { n with amount := n.amount.withLayout (if l.isEmpty then l.pushText " " else l.closeComment) }

end Nuclide

structure Nuclides where
  pairs : List Nuclide
deriving Repr

namespace Nuclides

def empty : Nuclides := ⟨[]⟩

def push (ns : Nuclides) (n : Nuclide) : Nuclides := ⟨ns.pairs ++ [n]⟩

def mapLast (g : Nuclide → Nuclide) : List Nuclide → List Nuclide
  | [] => []
  | [n] => [g n]
  | n :: ns => n :: mapLast g ns

/-- Appends a pair that was not read. -/
def add (ns : Nuclides) (name : String) (fraction : Float) (byWeight : Bool) : Nuclides :=
  let fresh := Nuclide.of ((Field.text name).withLayout .gap) (Field.real 0.0)
  ⟨mapLast Nuclide.closed ns.pairs ++ [fresh.setFraction fraction byWeight]⟩

def setAt (ns : Nuclides) (i : Nat) (fraction : Float) (byWeight : Bool) : Nuclides :=
  ⟨ns.pairs.modify i (·.setFraction fraction byWeight)⟩

def get? (ns : Nuclides) (name : String) : Option Nuclide :=
  ns.pairs.find? fun n => Text.sameWord n.name name

def size (ns : Nuclides) : Nat := ns.pairs.length

def isEmpty (ns : Nuclides) : Bool := ns.pairs.isEmpty

def trailing? (ns : Nuclides) : Option Layout := ns.pairs.getLast?.bind (·.amount.layout)

def dropTrailing (ns : Nuclides) : Nuclides :=
  ⟨mapLast (fun n => { n with amount := n.amount.setLayout none }) ns.pairs⟩

def render (t : Tolerance) (ns : Nuclides) : Rendered :=
  Rendered.concat (ns.pairs.map (Nuclide.render t))

def comments (ns : Nuclides) : List Comment := ns.pairs.flatMap Nuclide.comments

/-- Names and signed amounts in turn. -/
def values (ns : Nuclides) : List (Option Value) :=
  ns.pairs.flatMap fun n => [some (.text n.name), n.amount.signed]

end Nuclides

end TransportDeck
