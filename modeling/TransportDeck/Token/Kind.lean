import TransportDeck.Number.Literal
import TransportDeck.Text.Blank

/-!
# Kinds of tokens

What a lexeme is, and the five shorthand forms that stand for a run of values: `nJ` leaves places
open, `nR` repeats the value before it, `xM` multiplies it, and `nI` and `nILOG` put steps between
it and the value behind.
-/

namespace TransportDeck

inductive ShorthandKind where
  | jump
  | copies
  | multiply
  | linear
  | logarithmic
deriving Repr, DecidableEq

namespace ShorthandKind

def name : ShorthandKind → String
  | jump => "jump"
  | copies => "repeat"
  | multiply => "multiply"
  | linear => "interpolate"
  | logarithmic => "log-interpolate"

/-- The letters that a new shorthand is written with. -/
def letters : ShorthandKind → String
  | jump => "J"
  | copies => "R"
  | multiply => "M"
  | linear => "I"
  | logarithmic => "ILOG"

def isInterpolation : ShorthandKind → Bool
  | linear | logarithmic => true
  | _ => false

/-- Whether a lower-case word is a count, which may be left out, and the given letters. -/
def counted (letters : String) (word : List Char) : Bool :=
  match Text.dropEnding? letters.toList word with
  | some count => count.all Char.isDigit
  | none => false

/-- The shorthand that a word such as `3R`, `j`, `2ilog` or `1.5m` spells. -/
def classify? (text : String) : Option ShorthandKind :=
  let word := Text.lower text.toList
  if counted "j" word then some jump
  else if counted "r" word then some copies
  else if counted "ilog" word || counted "log" word then some logarithmic
  else if counted "i" word then some linear
  else
    match Text.dropEnding? ['m'] word with
    | some factor =>
      if (Number.readReal? (String.ofList factor)).isSome then some multiply else none
    | none => none

/-- A shorthand token cut before its letters: `4R` is `4` and `R`, and `1.5m` is `1.5` and `m`. -/
def split (kind : ShorthandKind) (token : String) : String × String :=
  let cs := token.toList
  match kind with
  | multiply => (String.ofList cs.dropLast, String.ofList (cs.drop (cs.length - 1)))
  | _ => (String.ofList (cs.takeWhile Char.isDigit), String.ofList (cs.dropWhile Char.isDigit))

end ShorthandKind

inductive TokenKind where
  /-- A run of blanks, line feeds included. -/
  | space
  /-- From a `$` to the end of its line. -/
  | inlineComment
  /-- A line that starts with a lone `c`. -/
  | comment
  /-- The mark `&` that continues a line. -/
  | ampersand
  | number
  /-- A number that is zero. -/
  | zero
  /-- Digits with letters behind them that are no shorthand, such as `80c`. -/
  | numberWord
  | shorthand (kind : ShorthandKind)
  /-- A nuclide such as `1001.80c`. -/
  | nuclide
  /-- A thermal scattering law such as `lwtr.10t`. -/
  | thermalLaw
  | text
  | keyword
  | particle
  /-- A run of particle symbols that are no letters, such as `|`. -/
  | particleSymbols
  | surfaceType
  | fileName
  | complement
  | leftParen
  | rightParen
  | colon
  | equals
  | asterisk
  | plus
  | comma
deriving Repr, DecidableEq

namespace TokenKind

/-- Kinds that only carry layout. -/
def isLayout : TokenKind → Bool
  | space | inlineComment | comment | ampersand => true
  | _ => false

def isComment : TokenKind → Bool
  | inlineComment | comment => true
  | _ => false

def isNumber : TokenKind → Bool
  | number | zero => true
  | _ => false

def isShorthand : TokenKind → Bool
  | shorthand _ => true
  | _ => false

/-- Kinds that can start a classifier or the name of a parameter. -/
def isWord : TokenKind → Bool
  | text | keyword | particle | surfaceType => true
  | _ => false

def describe : TokenKind → String
  | space => "whitespace"
  | inlineComment => "inline comment"
  | comment => "comment"
  | ampersand => "'&'"
  | number => "number"
  | zero => "zero"
  | numberWord => "number with suffix"
  | shorthand _ => "shortcut"
  | nuclide => "isotope identifier"
  | thermalLaw => "thermal law identifier"
  | text => "text"
  | keyword => "keyword"
  | particle => "particle"
  | particleSymbols => "particle symbol"
  | surfaceType => "surface type"
  | fileName => "file name"
  | complement => "'#'"
  | leftParen => "'('"
  | rightParen => "')'"
  | colon => "':'"
  | equals => "'='"
  | asterisk => "'*'"
  | plus => "'+'"
  | comma => "','"

end TokenKind

end TransportDeck
