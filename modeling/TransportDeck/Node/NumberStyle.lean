import TransportDeck.Node.Field
import TransportDeck.Node.Rendered
import TransportDeck.Number.Render

/-!
# Writing a changed value in the style of its token

A field whose value is what was read writes its token. Otherwise the style of the token (width,
zeros, sign, digits after the point, exponent) is recovered from it and the new value is written
in that style, so that the columns of the line stay where they are if they can.
-/

namespace TransportDeck

open Number

structure NumberStyle where
  /-- The width of the token and of the space right behind it. -/
  width : Nat
  zeroWidth : Nat
  sign : SignStyle
  places : Nat
  scientific : Bool
  exponentMark : List Char
  exponentWidth : Nat
  exponentZeros : Nat
  /-- The token shows no point. -/
  whole : Bool
  /-- The style was recovered from a token. -/
  recovered : Bool
deriving Repr, DecidableEq

namespace NumberStyle

def plain : NumberStyle :=
  ⟨0, 0, .negativeOnly, Limits.decimalPlaces, true, ['e'], 0, 0, false, false⟩

/-- The parts of a number in scientific notation. -/
structure Parts where
  mantissa : List Char
  mark : List Char
  exponent : List Char
deriving Repr, DecidableEq

/-- The letter of an exponent and what stands behind it and its sign. -/
def exponentParts? : List Char → Option (List Char × List Char)
  | c :: rest =>
    if c == 'e' || c == 'E' then
      match rest with
      | d :: tail => some ([c], if d == '+' || d == '-' then tail else rest)
      | [] => some ([c], [])
    else if c == '+' || c == '-' then some ([], rest)
    else none
  | [] => none

def scientificParts? (token : List Char) : Option Parts :=
  let unsigned := match token with
    | c :: rest => if c == '+' || c == '-' then rest else token
    | [] => []
  let whole := unsigned.takeWhile Char.isDigit
  let afterWhole := unsigned.dropWhile Char.isDigit
  let points := afterWhole.takeWhile (· == '.')
  let afterPoints := afterWhole.dropWhile (· == '.')
  let fraction := afterPoints.takeWhile Char.isDigit
  if whole.isEmpty then none
  else match exponentParts? (afterPoints.dropWhile Char.isDigit) with
    | none => none
    | some (mark, rest) =>
      let digits := rest.takeWhile Char.isDigit
      if digits.isEmpty then none else some ⟨whole ++ points ++ fraction, mark, digits⟩

def signOf (token : List Char) : SignStyle :=
  match token with
  | '+' :: _ => .always
  | '-' :: _ => .space
  | _ => .negativeOnly

def isFiller (c : Char) : Bool := c == '0' || c == '+' || c == '-'

/-- The digits after the point, and whether there is none. -/
def withPlaces (style : NumberStyle) (mantissa : List Char) : NumberStyle :=
  match Text.splitWhere (· == '.') mantissa with
  | [_, fraction] => { style with places := Text.byteSize fraction }
  | _ => { style with places := Limits.decimalPlaces, whole := true }

def ofRealToken (style : NumberStyle) (token : List Char) : NumberStyle :=
  match scientificParts? token with
  | some parts =>
    let style := { style with scientific := true, exponentMark := parts.mark }
    let style := match parts.exponent with
      | '0' :: _ =>
        { style with
          exponentWidth := parts.exponent.length, exponentZeros := parts.exponent.length }
      | _ => style
    style.withPlaces parts.mantissa
  | none => { style with scientific := false }.withPlaces token

def ofNumericToken (style : NumberStyle) (token : List Char) : NumberStyle :=
  let filler := (token.takeWhile isFiller).length
  let sign := signOf token
  let zeros := if sign = .negativeOnly then filler else filler - 1
  { style with sign := sign, zeroWidth := if zeros > 0 then Text.byteSize token else 0 }

end NumberStyle

namespace Field

def holdsReal (f : Field) : Bool :=
  match f.value with
  | some (.real _) => true
  | _ => false

/-- The width of a space at the start of the layout. -/
def spaceWidth (f : Field) : Nat :=
  match f.layout.bind (·.pieces.head?) with
  | some (.space t) => t.utf8ByteSize
  | _ => 0

/-- The style that the token of a field shows. -/
def style (f : Field) : NumberStyle :=
  match f.token with
  | none => .plain
  | some token =>
    let style : NumberStyle :=
      { NumberStyle.plain with recovered := true, width := token.utf8ByteSize + f.spaceWidth }
    if !f.kind.isNumeric then style
    else
      let style := style.ofNumericToken token.toList
      if f.kind = .real || f.holdsReal then style.ofRealToken token.toList else style

end Field

namespace NumberStyle

/-- The text up to its last sign and the part behind it. -/
def cutLastSign? (cs : List Char) : Option (List Char × List Char) :=
  match cs.reverse.dropWhile (fun c => !(c == '+' || c == '-')) with
  | [] => none
  | r => some (r.reverse, (cs.reverse.takeWhile (fun c => !(c == '+' || c == '-'))).reverse)

def exponentValue (cs : List Char) : Nat :=
  if cs.all Char.isDigit then Decimal.natOfDigits cs else 0

/-- The exponent is padded as the token padded its own. -/
def restyleExponent (style : NumberStyle) (text : String) : String :=
  match cutLastSign? text.toList with
  | none => text
  | some (head, digits) =>
    let exponent := String.ofList (Decimal.digitsTo style.exponentZeros (exponentValue digits))
    String.ofList head ++ Text.padRight style.exponentWidth exponent

def markExponent (style : NumberStyle) (text : String) : String :=
  String.ofList (text.toList.flatMap fun c => if c == 'e' then style.exponentMark else [c])

def renderReal (style : NumberStyle) (t : Tolerance) (x : Float) : String :=
  let nearest := Decimal.nearestWhole x
  if style.whole && t.close nearest x then
    renderInt (truncate nearest) style.zeroWidth style.sign
  else if !style.recovered then renderGeneral x style.places style.zeroWidth style.sign
  else if style.scientific then
    style.restyleExponent
      (style.markExponent (renderScientific x style.places style.zeroWidth style.sign))
  else if style.whole then renderGeneral x 6 style.zeroWidth style.sign
  else renderFixed x style.places style.zeroWidth style.sign

def render (style : NumberStyle) (t : Tolerance) : Value → String
  | .text s => s
  | .int n => renderInt n style.zeroWidth style.sign
  | .real x => style.renderReal t x

end NumberStyle

namespace Field

/-- A second blank piece keeps the value apart from what follows. -/
def keptApart (l : Layout) : Bool :=
  match l.pieces with
  | _ :: p :: _ => p.isBlank
  | _ => false

/-- What stands behind a changed value: a blank if it has used up its own, and the layout that
is not part of its width. -/
def afterValue (f : Field) (style : NumberStyle) (rendered : String) : String × String :=
  match f.layout with
  | none => ("", "")
  | some l =>
    if l.startsWithSpace then
      (if rendered.utf8ByteSize ≥ style.width && !keptApart l then " " else "",
        Layout.text ⟨l.pieces.drop 1⟩)
    else ("", l.text)

def expansionWarning (token rendered : String) : Warning :=
  .of .lineExpansion
    ("The value has expanded, and may change formatting. The original value was " ++ token ++
      ", new value is " ++ rendered ++ ".")

def renderChanged (f : Field) (t : Tolerance) (v : Value) : Rendered :=
  let style := f.style
  let rendered := style.render t v
  let (blank, rest) := f.afterValue style rendered
  let written := Text.padRight style.width rendered ++ blank
  let warnings := match f.token with
    | some token =>
      if written.utf8ByteSize > style.width then [expansionWarning token rendered] else []
    | none => []
  ⟨written ++ rest, warnings⟩

/-- The text of a field: its token as long as the value is the one that was read. -/
def render (t : Tolerance) (f : Field) : Rendered :=
  if !f.hasChanged t then .ofText (f.token.getD "" ++ layoutText f.layout)
  else match f.signed with
    | none => .empty
    | some v => f.renderChanged t v

end Field

/-- The text of a field that may be missing. -/
def renderField (t : Tolerance) (f : Option Field) : Rendered :=
  match f with
  | some f => f.render t
  | none => .empty

end TransportDeck
