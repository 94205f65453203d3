import TransportDeck.Text.Printable

/-!
# Escaped text

How a lexeme is shown in a message: quotes, backslashes and line ends are escaped by a backslash,
and a character that would not be visible is written as its code point.
-/

namespace TransportDeck.Text

def hexDigits (n : Nat) : List Char := Nat.toDigits 16 n

def codePointEscape (c : Char) : List Char :=
  ['\\', 'u', '\x7b'] ++ hexDigits c.toNat ++ ['\x7d']

/-- The escapes that a backslash and one character spell. -/
def shortEscape? (c : Char) : Option Char :=
  if c == '\x00' then some '0'
  else if c == '\t' then some 't'
  else if c == '\n' then some 'n'
  else if c == '\r' then some 'r'
  else if c == '\\' then some '\\'
  else none

/-- Which quotes are escaped besides. -/
structure QuoteStyle where
  single : Bool
  double : Bool

def escapeChar (style : QuoteStyle) (first : Bool) (c : Char) : List Char :=
  match shortEscape? c with
  | some e => ['\\', e]
  | none =>
    if (style.single && c == '\'') || (style.double && c == '"') then ['\\', c]
    else if c.toNat < 0x7F && 0x20 ≤ c.toNat then [c]
    else if (first && isExtending c) || isInvisible c then codePointEscape c
    else [c]

/-- A mark that would join the character before it is escaped only where there is none. -/
def escapeWith (style : QuoteStyle) : List Char → List Char
  | [] => []
  | c :: cs => escapeChar style true c ++ cs.flatMap (escapeChar style false)

def escaped (s : String) : String := String.ofList (escapeWith ⟨true, true⟩ s.toList)

/-- The text between double quotes; no character of it is taken to join the one before. -/
def quotedWith (style : QuoteStyle) (s : String) : String :=
  "\"" ++ String.ofList (s.toList.flatMap (escapeChar style true)) ++ "\""

/-- The text as a diagnostic of a value prints it. -/
def quoted (s : String) : String := quotedWith ⟨false, true⟩ s

/-- A path as a diagnostic prints it, which escapes both quotes. -/
def quotedPath (s : String) : String := quotedWith ⟨true, true⟩ s

end TransportDeck.Text
