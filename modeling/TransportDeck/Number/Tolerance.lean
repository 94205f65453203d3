/-!
# Tolerance

When two numbers count as the same value.
-/

namespace TransportDeck

structure Tolerance where
  rel : Float
  abs : Float

def Tolerance.standard : Tolerance := ⟨1e-9, 0.0⟩

instance : Inhabited Tolerance := ⟨Tolerance.standard⟩

/-- The larger of two floats; a value that is not a number gives way to the other. -/
def maxFloat (a b : Float) : Float :=
  if a.isNaN then b else if b.isNaN then a else if a < b then b else a

/-- Equal, or finite and no further apart than the tolerance allows. -/
def Tolerance.close (t : Tolerance) (a b : Float) : Bool :=
  if a == b then true
  else if !a.isFinite || !b.isFinite then false
  else (a - b).abs ≤ maxFloat (t.rel * maxFloat a.abs b.abs) t.abs

end TransportDeck
