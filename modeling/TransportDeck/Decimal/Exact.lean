/-!
# Exact decimal digits of a binary value

A finite float is a natural number times a power of two, so its decimal digits can be computed in
exact arithmetic. Fixed and scientific notation round that value once, a half to the even
neighbour; the shortest notation is the first decimal grid that has a point which reads back.
-/

namespace TransportDeck.Decimal

/-- The quotient rounded to the nearest natural number, a half to the even one. -/
def roundDiv (num den : Nat) : Nat :=
  let q := num / den
  let r := num % den
  if 2 * r > den || (2 * r == den && q % 2 == 1) then q + 1 else q

def tenTo (n : Nat) : Nat := Nat.pow 10 n

def twoTo (n : Nat) : Nat := Nat.pow 2 n

/-- The value `num / den`. -/
structure Ratio where
  num : Nat
  den : Nat
deriving Repr, DecidableEq

/-- `num / den * 10 ^ k`. -/
def Ratio.scale (r : Ratio) (k : Int) : Ratio :=
  match k with
  | .ofNat n => ⟨r.num * tenTo n, r.den⟩
  | .negSucc n => ⟨r.num, r.den * tenTo (n + 1)⟩

def Ratio.round (r : Ratio) : Nat := roundDiv r.num r.den

/-- A nonnegative finite float as `mantissa * 2 ^ exponent`. -/
structure Binary where
  mantissa : Nat
  exponent : Int
deriving Repr, DecidableEq

/-- The magnitude of a finite float. -/
def Binary.ofFloat (x : Float) : Binary :=
  let bits := x.toBits.toNat
  let fraction := bits % twoTo 52
  let exponent : Nat := bits / twoTo 52 % twoTo 11
  if exponent == 0 then ⟨fraction, -1074⟩ else ⟨fraction + twoTo 52, (exponent : Int) - 1075⟩

def Binary.ratio (b : Binary) : Ratio :=
  match b.exponent with
  | .ofNat n => ⟨b.mantissa * twoTo n, 1⟩
  | .negSucc n => ⟨b.mantissa, twoTo (n + 1)⟩

def Binary.isWhole (b : Binary) : Bool :=
  match b.exponent with
  | .ofNat _ => true
  | .negSucc n => b.mantissa % twoTo (n + 1) == 0

/-- The whole part. -/
def Binary.whole (b : Binary) : Nat :=
  match b.exponent with
  | .ofNat n => b.mantissa * twoTo n
  | .negSucc n => b.mantissa / twoTo (n + 1)

/-- The nearest natural number; halves are rounded up. -/
def Binary.nearest (b : Binary) : Nat :=
  match b.exponent with
  | .ofNat n => b.mantissa * twoTo n
  | .negSucc n => (2 * b.mantissa + twoTo (n + 1)) / twoTo (n + 2)

def digits (n : Nat) : List Char := Nat.toDigits 10 n

/-- The digits of `n` with zeros in front, `width` in all. -/
def digitsTo (width n : Nat) : List Char :=
  let ds := digits n
  List.replicate (width - ds.length) '0' ++ ds

/-- The power of ten at or below a nonzero ratio. -/
def Ratio.magnitude (r : Ratio) : Int :=
  if r.num ≥ r.den then ((digits (r.num / r.den)).length : Int) - 1
  else
    let l := (digits (r.den / r.num)).length
    if r.num * tenTo (l - 1) ≥ r.den then -((l : Int) - 1) else -(l : Int)

/-! ## Fixed notation -/

/-- `n` with a point before its last `places` digits. -/
def withPoint (places n : Nat) : List Char :=
  if places == 0 then digits n
  else
    let ds := digitsTo (places + 1) n
    ds.take (ds.length - places) ++ '.' :: ds.drop (ds.length - places)

def Ratio.fixed (r : Ratio) (places : Nat) : List Char :=
  withPoint places (r.scale places).round

/-! ## Scientific notation -/

/-- A mantissa with one digit before the point, and the power of ten. -/
structure Scientific where
  mantissa : List Char
  exponent : Int
deriving Repr, DecidableEq

/-- `places` digits follow the point. -/
def Ratio.scientific (r : Ratio) (places : Nat) : Scientific :=
  if r.num == 0 then ⟨withPoint places 0, 0⟩
  else
    let e := r.magnitude
    let n := (r.scale ((places : Int) - e)).round
    if n == tenTo (places + 1) then ⟨withPoint places (tenTo places), e + 1⟩
    else ⟨withPoint places n, e⟩

/-! ## Shortest notation -/

/-- `digits * 10 ^ exponent`. -/
structure Point where
  digits : Nat
  exponent : Int
deriving Repr, DecidableEq

/-- The values that round to a float lie between the two midpoints to its neighbours. Both are
given as multiples of a quarter of the last place, so that they are whole numbers. -/
def Binary.bounds (b : Binary) : Nat × Nat :=
  let below := if b.mantissa == twoTo 52 && b.exponent > -1074 then 1 else 2
  (4 * b.mantissa - below, 4 * b.mantissa + 2)

/-- Whether `n * 10 ^ e` reads back as the float. -/
def Binary.holds (b : Binary) (n : Nat) (e : Int) : Bool :=
  let (low, high) := b.bounds
  let unit : Ratio := (Binary.mk 1 (b.exponent - 2)).ratio
  let p : Ratio := Ratio.scale ⟨n, 1⟩ e
  let point := p.num * unit.den
  let lowEnd := low * unit.num * p.den
  let highEnd := high * unit.num * p.den
  if b.mantissa % 2 == 0 then lowEnd ≤ point && point ≤ highEnd
  else lowEnd < point && point < highEnd

/-- The point nearest to the float on the grid of multiples of `10 ^ e` that reads back; of two at
the same distance the larger. -/
def Binary.onGrid? (b : Binary) (e : Int) : Option Nat :=
  let r := b.ratio.scale (-e)
  let down := r.num / r.den
  let rest := r.num % r.den
  let downHolds := b.holds down e
  let upHolds := b.holds (down + 1) e
  if upHolds && (!downHolds || 2 * rest ≥ r.den) then some (down + 1)
  else if downHolds then some down
  else none

def Binary.shortestFrom (b : Binary) (top : Int) : (more : Nat) → (count : Nat) → Point
  | 0, count =>
    let e := top - (count : Int) + 1
    ⟨(b.ratio.scale (-e)).round, e⟩
  | more + 1, count =>
    let e := top - (count : Int) + 1
    match b.onGrid? e with
    | some n => ⟨n, e⟩
    | none => b.shortestFrom top more (count + 1)

/-- The decimal with the fewest digits that reads back as the float; seventeen always suffice. -/
def Binary.shortest (b : Binary) : Point :=
  if b.mantissa == 0 then ⟨0, 0⟩ else b.shortestFrom b.ratio.magnitude 17 1

/-- Positional notation without trailing zeros. -/
def Point.positional (p : Point) : List Char :=
  match p.exponent with
  | .ofNat n => Decimal.digits (p.digits * tenTo n)
  | .negSucc n =>
    let ds := withPoint (n + 1) p.digits
    ((ds.reverse.dropWhile (· == '0')).dropWhile (· == '.')).reverse

/-! ## Texts of floats -/

def isNegative (x : Float) : Bool := x.toBits.toNat ≥ twoTo 63

/-- The nearest whole float; halves are rounded away from zero. -/
def nearestWhole (x : Float) : Float :=
  if x.isFinite then
    let magnitude := Float.ofNat (Binary.ofFloat x).nearest
    if isNegative x then -magnitude else magnitude
  else x

/-- The shortest decimal that reads back, in positional notation. -/
def plain (x : Float) : String :=
  if x.isNaN then "NaN"
  else
    let sign := if isNegative x then "-" else ""
    if x.isInf then sign ++ "inf"
    else sign ++ String.ofList (Binary.ofFloat x).shortest.positional

/-- Scientific notation with `places` digits after the point, and a bare exponent. -/
def scientificText (x : Float) (places : Nat) : String :=
  if x.isNaN then "nan"
  else if x.isInf then if isNegative x then "-inf" else "inf"
  else
    let s := (Binary.ofFloat x).ratio.scientific places
    (if isNegative x then "-" else "") ++ String.ofList s.mantissa ++ "e" ++ toString s.exponent

end TransportDeck.Decimal
