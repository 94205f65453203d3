import TransportDeck.Decimal.Exact

/-!
# Rendering numbers

Exponents carry a sign and at least two digits; general notation picks fixed or scientific by
magnitude and drops trailing zeros. Zeros fill the gap between the sign and the digits.
-/

namespace TransportDeck.Number

/-- What stands before a number that is not negative. -/
inductive SignStyle where
  | negativeOnly
  | always
  | space
deriving Repr, DecidableEq

def SignStyle.mark (s : SignStyle) (negative : Bool) : String :=
  if negative then "-"
  else match s with
    | .negativeOnly => ""
    | .always => "+"
    | .space => " "

def zeroFill (sign digits : String) (width : Nat) : String :=
  sign ++ String.ofList (List.replicate (width - (sign.length + digits.length)) '0') ++ digits

def special? (x : Float) : Option String :=
  if x.isNaN then some "nan"
  else if x.isInf then some (if x < 0 then "-inf" else "inf")
  else none

def renderInt (n : Int) (width : Nat) (sign : SignStyle) : String :=
  zeroFill (sign.mark (n < 0)) (toString n.natAbs) width

def exponentText (e : Int) : String :=
  (if e < 0 then "-" else "+") ++ String.ofList (Decimal.digitsTo 2 e.natAbs)

def isBelowZero (x : Float) : Bool := Decimal.isNegative x && x != 0

def magnitude (x : Float) : Decimal.Ratio := (Decimal.Binary.ofFloat x).ratio

/-- Scientific notation with `places` digits after the point, such as `1.50000e+03`. -/
def renderScientific (x : Float) (places width : Nat) (sign : SignStyle) : String :=
  match special? x with
  | some text => text
  | none =>
    let s := (magnitude x).scientific places
    let digits := String.ofList s.mantissa ++ "e" ++ exponentText s.exponent
    zeroFill (sign.mark (isBelowZero x)) digits width

/-- Fixed notation with `places` digits after the point. -/
def renderFixed (x : Float) (places width : Nat) (sign : SignStyle) : String :=
  match special? x with
  | some text => text
  | none =>
    zeroFill (sign.mark (isBelowZero x)) (String.ofList ((magnitude x).fixed places)) width

/-- A fraction loses its trailing zeros, and its point if nothing is left behind it. -/
def stripZeros (cs : List Char) : List Char :=
  if cs.contains '.' then
    ((cs.reverse.dropWhile (· == '0')).dropWhile (· == '.')).reverse
  else cs

def generalDigits (r : Decimal.Ratio) (precision : Nat) : String :=
  if r.num == 0 then "0"
  else
    let s := r.scientific (precision - 1)
    if s.exponent ≥ -4 && s.exponent < precision then
      String.ofList (stripZeros (r.fixed ((precision : Int) - 1 - s.exponent).toNat))
    else String.ofList (stripZeros s.mantissa) ++ "e" ++ exponentText s.exponent

/-- General notation with `precision` significant digits, at least one. -/
def renderGeneral (x : Float) (precision width : Nat) (sign : SignStyle) : String :=
  match special? x with
  | some text => text
  | none =>
    zeroFill (sign.mark (isBelowZero x)) (generalDigits (magnitude x) (max precision 1)) width

end TransportDeck.Number
