import TransportDeck.Decimal.Exact
import TransportDeck.Number.Literal
import TransportDeck.Number.Tolerance

/-!
# Values

An entry of a record is an integer, a real number or a word.
-/

namespace TransportDeck

inductive ValueKind where
  | int
  | real
  | text
deriving Repr, DecidableEq

def ValueKind.isNumeric : ValueKind → Bool
  | int | real => true
  | text => false

inductive Value where
  | int (n : Int)
  | real (x : Float)
  | text (s : String)
deriving Repr, Inhabited

namespace Value

def kind : Value → ValueKind
  | int _ => .int
  | real _ => .real
  | text _ => .text

def toReal? : Value → Option Float
  | int n => some (Float.ofInt n)
  | real x => some x
  | text _ => none

/-- A real number counts as an integer if it is whole. -/
def toInt? : Value → Option Int
  | int n => some n
  | real x => if Number.isWhole x then some (Number.truncate x) else none
  | text _ => none

def toText? : Value → Option String
  | text s => some s
  | _ => none

def negate : Value → Value
  | int n => int (-n)
  | real x => real (-x)
  | text s => text s

def magnitude : Value → Value
  | int n => int n.natAbs
  | real x => real x.abs
  | text s => text s

def isNegative : Value → Bool
  | int n => n < 0
  | real x => x < 0
  | text _ => false

def shown : Value → String
  | int n => toString n
  | real x => Decimal.plain x
  | text s => s

/-- The value as one of a kind, where that loses nothing; otherwise as it is. -/
def coerce (kind : ValueKind) : Value → Value
  | int n => match kind with
    | .int => int n
    | .real => real (Float.ofInt n)
    | .text => text (toString n)
  | real x => match kind with
    | .int => if Number.isWhole x then int (Number.truncate x) else real x
    | .real => real x
    | .text => text (Decimal.plain x)
  | text s => text s

/-- Numbers are compared within a tolerance, words exactly. -/
def close (t : Tolerance) (a b : Value) : Bool :=
  match a.toReal?, b.toReal? with
  | some x, some y => t.close x y
  | _, _ => match a, b with
    | text s, text u => s == u
    | _, _ => false

end Value

end TransportDeck
