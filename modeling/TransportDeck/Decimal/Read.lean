/-!
# Reading decimal numbers

A decimal is an optional sign, digits with at most one point among them, and an optional power of
ten. It is read as the nearest float.
-/

namespace TransportDeck.Decimal

/-- The number `± digits * 10 ^ exponent`. -/
structure Literal where
  negative : Bool
  digits : Nat
  exponent : Int
deriving Repr, DecidableEq

def natOfDigits (cs : List Char) : Nat :=
  cs.foldl (fun n c => 10 * n + (c.toNat - '0'.toNat)) 0

/-- Beyond these bounds a decimal is infinite or zero whatever its digits are. -/
def Literal.toFloat (l : Literal) : Float :=
  let size := ((Nat.toDigits 10 l.digits).length : Int) + l.exponent
  let magnitude : Float :=
    if l.digits == 0 || size < -400 then 0.0
    else if size > 400 then 1.0 / 0.0
    else match l.exponent with
      | .ofNat n => Float.ofScientific (l.digits * Nat.pow 10 n) false 0
      | .negSucc n => Float.ofScientific l.digits true (n + 1)
  if l.negative then -magnitude else magnitude

def readSign : List Char → Bool × List Char
  | '-' :: cs => (true, cs)
  | '+' :: cs => (false, cs)
  | cs => (false, cs)

/-- A power of ten and nothing after it. -/
def readExponent? : List Char → Option Int
  | [] => some 0
  | c :: cs =>
    if c == 'e' || c == 'E' then
      let (negative, ds) := readSign cs
      if !ds.isEmpty && ds.all Char.isDigit then
        let n : Int := natOfDigits ds
        some (if negative then -n else n)
      else none
    else none

def readUnsigned? (negative : Bool) (cs : List Char) : Option Literal :=
  let whole := cs.takeWhile Char.isDigit
  let rest := cs.dropWhile Char.isDigit
  let (fraction, rest) := match rest with
    | '.' :: r => (r.takeWhile Char.isDigit, r.dropWhile Char.isDigit)
    | r => ([], r)
  if whole.isEmpty && fraction.isEmpty then none
  else (readExponent? rest).map fun e =>
    ⟨negative, natOfDigits (whole ++ fraction), e - (fraction.length : Int)⟩

def readLiteral? (cs : List Char) : Option Literal :=
  let (negative, rest) := readSign cs
  readUnsigned? negative rest

/-- The words for values that have no digits, in any letter case. -/
def readSpecial? (cs : List Char) : Option Float :=
  let (negative, rest) := readSign cs
  let word := String.ofList (rest.map Char.toLower)
  let value : Option Float :=
    if word == "inf" || word == "infinity" then some (1.0 / 0.0)
    else if word == "nan" then some (0.0 / 0.0)
    else none
  value.map fun x => if negative then -x else x

/-- A decimal number or one of the special words. -/
def read? (cs : List Char) : Option Float :=
  match readLiteral? cs with
  | some l => some l.toFloat
  | none => readSpecial? cs

end TransportDeck.Decimal
