import TransportDeck.Decimal.Exact
import TransportDeck.Decimal.Read

/-!
# Numbers as a deck writes them

Integers are decimal and fit in 64 bits. A real number may leave out the letter of its exponent,
so that `1.2+3` is `1.2e+3`.
-/

namespace TransportDeck.Number

def minInt : Int := -9223372036854775808

def maxInt : Int := 9223372036854775807

/-- An integer with an optional sign, within the 64-bit range. -/
def readInt? (text : String) : Option Int :=
  let (negative, ds) := Decimal.readSign text.toList
  if ds.isEmpty || !ds.all Char.isDigit then none
  else
    let n : Int := Decimal.natOfDigits ds
    let value := if negative then -n else n
    if minInt ≤ value && value ≤ maxInt then some value else none

def isRealChar (c : Char) : Bool :=
  c.isDigit || c == '.' || c == 'e' || c == 'E' || c == '+' || c == '-'

/-- An `E` goes before every sign that follows a digit. -/
def withExponentLetter : List Char → List Char
  | [] => []
  | [c] => [c]
  | c :: d :: cs =>
    if c.isDigit && (d == '+' || d == '-') then c :: 'E' :: withExponentLetter (d :: cs)
    else c :: withExponentLetter (d :: cs)

/-- A real number whose exponent may have no letter. -/
def readReal? (text : String) : Option Float :=
  let cs := text.toList
  if cs.any Char.isDigit && cs.all isRealChar then
    match Decimal.readLiteral? cs with
    | some l => some l.toFloat
    | none => (Decimal.readLiteral? (withExponentLetter cs)).map (·.toFloat)
  else none

/-- The whole part of a float, held within the 64-bit range; zero for what is not a number. -/
def truncate (x : Float) : Int :=
  if x.isNaN then 0
  else
    let n : Int := (Decimal.Binary.ofFloat x).whole
    max minInt (min maxInt (if Decimal.isNegative x then -n else n))

def isWhole (x : Float) : Bool := x.isFinite && (Decimal.Binary.ofFloat x).isWhole

end TransportDeck.Number
