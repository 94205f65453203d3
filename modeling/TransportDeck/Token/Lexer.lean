import TransportDeck.Diagnostics.Event
import TransportDeck.Token.Basic
import TransportDeck.Vocabulary

/-!
# The lexer

A record is cut into tokens from left to right. At each place the lexemes are tried in a fixed
order, and the block of the record decides which words have a meaning. Nothing is left out: blanks
and comments are tokens too, so the texts of the tokens make up the record.
-/

namespace TransportDeck

open Text

/-- Which vocabulary words are looked up in. -/
inductive LexMode where
  | cell
  | surface
  | data
  /-- Records that name a file, where most words are file names. -/
  | read
deriving Repr, DecidableEq

def LexMode.name : LexMode → String
  | cell => "Cell"
  | surface => "Surface"
  | data => "Data"
  | read => "Read"

inductive LexError where
  | invalidCharacter (c : Char) (span : Span)
  | tokenTooLong (size : Nat) (span : Span)
  | tooManyTokens (count : Nat)
deriving Repr, DecidableEq

namespace LexError

def message : LexError → String
  | invalidCharacter c span =>
    "Invalid character: '" ++ c.toString ++ "' at line " ++ toString span.start.line ++
      ", column " ++ toString span.start.column
  | tokenTooLong size _ =>
    "Token too long: " ++ toString size ++ " characters (max " ++ toString Limits.tokenBytes ++ ")"
  | tooManyTokens count =>
    "Too many tokens: " ++ toString count ++ " (max " ++ toString Limits.tokens ++ ")"

def code : LexError → Code
  | invalidCharacter .. => .invalidCharacter
  | tokenTooLong .. => .tokenTooLong
  | tooManyTokens _ => .tooManyTokens

def span? : LexError → Option Span
  | invalidCharacter _ span | tokenTooLong _ span => some span
  | tooManyTokens _ => none

end LexError

/-! ## Lexemes

Each scanner gives the number of characters of the lexeme at the start of a text. -/

namespace Lexer

def run (p : Char → Bool) (cs : List Char) : Nat := (cs.takeWhile p).length

theorem run_le_length (p : Char → Bool) (cs : List Char) : run p cs ≤ cs.length :=
  (List.takeWhile_sublist p).length_le

def digits (cs : List Char) : Nat := run Char.isDigit cs

def letters (cs : List Char) : Nat := run Char.isAlpha cs

def isSign (c : Char) : Bool := c == '+' || c == '-'

/-- The length of a sign, if the text starts with one. -/
def sign : List Char → Nat
  | c :: _ => if isSign c then 1 else 0
  | [] => 0

/-- Four to six digits, a point, and two digits and a letter or three digits and two letters. -/
def nuclide? (cs : List Char) : Option Nat :=
  let n := digits cs
  if 4 ≤ n && n ≤ 6 then
    match cs.drop n with
    | '.' :: rest =>
      let m := digits rest
      let l := letters (rest.drop m)
      if m == 2 && l ≥ 1 then some (n + 4)
      else if m == 3 && l ≥ 2 then some (n + 6)
      else none
    | _ => none
  else none

def isLawChar (c : Char) : Bool := c.isAlphanum || c == '/' || c == '-'

/-- A letter, one or more of letters, digits, slashes and dashes, a point, digits, a letter. -/
def thermalLaw? : List Char → Option Nat
  | [] => none
  | c :: cs =>
    let body := run isLawChar cs
    if c.isAlpha && body > 0 then
      match cs.drop body with
      | '.' :: rest =>
        let n := digits rest
        match rest.drop n with
        | d :: _ => if n > 0 && d.isAlpha then some (body + n + 3) else none
        | [] => none
      | _ => none
    else none

/-- An integer with letters right behind it that do not start with `e`. -/
def numberWord? (cs : List Char) : Option Nat :=
  let s := sign cs
  let n := digits (cs.drop s)
  if n == 0 then none
  else match cs.drop (s + n) with
    | c :: rest =>
      if c == 'e' || c == 'E' then none
      else if c.isAlpha then some (s + n + letters (c :: rest))
      else none
    | [] => none

/-- A power of ten, whose letter or sign may be left out but not both. -/
def exponent (cs : List Char) : Nat :=
  let l := match cs with
    | c :: _ => if c == 'e' || c == 'E' then 1 else 0
    | [] => 0
  let s := sign (cs.drop l)
  let n := digits (cs.drop (l + s))
  if l + s > 0 && n > 0 then l + s + n else 0

/-- A decimal number with a digit before or behind its point. -/
def number? (cs : List Char) : Option Nat :=
  let s := sign cs
  let n := digits (cs.drop s)
  let mantissa : Option Nat := match cs.drop (s + n) with
    | '.' :: rest =>
      let m := digits rest
      if n == 0 && m == 0 then none else some (s + n + 1 + m)
    | _ => if n == 0 then none else some (s + n)
  mantissa.map fun k => k + exponent (cs.drop k)

/-- Letters, then letters, points and slashes. -/
def word (cs : List Char) : Nat :=
  let n := letters cs
  if n == 0 then 0
  else n + run (fun c => c.isAlpha || c == '.' || c == '/') (cs.drop n)

/-- The symbols that stand for particles in a data record. -/
def isParticleSymbol (c : Char) : Bool := "|+-!<>/%^_~@*?".toList.contains c

def punctuation? (c : Char) : Option TokenKind :=
  match c with
  | '(' => some .leftParen
  | ')' => some .rightParen
  | ':' => some .colon
  | '&' => some .ampersand
  | '=' => some .equals
  | '*' => some .asterisk
  | '+' => some .plus
  | ',' => some .comma
  | _ => none

/-! ## Classes of words and numbers -/

def classifyWord (mode : LexMode) (text : String) : TokenKind :=
  match ShorthandKind.classify? text with
  | some kind => .shorthand kind
  | none =>
    if mode = .surface && Vocabulary.isSurfaceType text then .surfaceType
    else if Vocabulary.isKeyword text then .keyword
    else match mode, text.toList with
      | .cell, [c] | .data, [c] => if Vocabulary.isParticle c then .particle else .text
      | _, _ => .text

def classifyNumberWord (text : String) : TokenKind :=
  match ShorthandKind.classify? text with
  | some kind => .shorthand kind
  | none => .numberWord

def classifyNumber (text : String) : TokenKind :=
  match Number.readReal? text with
  | some x => if x == 0 then .zero else .number
  | none => .number

def endsWord : List Char → Bool
  | c :: _ => !c.isAlphanum
  | [] => true

/-- A number of `n` characters takes a lone `m` behind it along, as a factor. -/
def numberLexeme (cs : List Char) (n : Nat) : TokenKind × Nat :=
  let plain := (classifyNumber (String.ofList (cs.take n)), n)
  match cs.drop n with
  | c :: rest =>
    if (c == 'm' || c == 'M') && endsWord rest then (.shorthand .multiply, n + 1) else plain
  | [] => plain

/-! ## The order of lexemes -/

def endsLine : List Char → Bool
  | c :: _ => isAsciiBlank c
  | [] => true

/-- A lone `c` in one of the first columns of a line, with only spaces before it. `margin` is the
number of these spaces, if there is nothing else. -/
def startsComment (margin : Option Nat) (c : Char) (cs : List Char) : Bool :=
  match margin with
  | some n => (c == 'c' || c == 'C') && n < Limits.continuationColumns && endsLine cs
  | none => false

def toLineEnd (cs : List Char) : Nat := run (· != '\n') cs

/-- In a record that names a file a word runs to the next blank, equals sign or comment. -/
def fileLexeme (c : Char) (cs : List Char) : TokenKind × Nat :=
  if c == '=' then (.equals, 1)
  else if c == '&' && endsLine cs then (.ampersand, 1)
  else
    let n := 1 + run (fun d => !isAsciiBlank d && d != '=' && d != '$') cs
    if Vocabulary.isKeyword (String.ofList ((c :: cs).take n)) then (.keyword, n)
    else (.fileName, n)

def symbolLexeme? (mode : LexMode) (c : Char) (cs : List Char) : Option (TokenKind × Nat) :=
  if mode = .data && isParticleSymbol c then some (.particleSymbols, 1 + run isParticleSymbol cs)
  else (punctuation? c).map (·, 1)

def wordLexeme? (mode : LexMode) (c : Char) (cs : List Char) : Option (TokenKind × Nat) :=
  let source := c :: cs
  match nuclide? source with
  | some n => some (.nuclide, n)
  | none =>
  match thermalLaw? source with
  | some n => some (.thermalLaw, n)
  | none =>
  match numberWord? source with
  | some n => some (classifyNumberWord (String.ofList (source.take n)), n)
  | none =>
  match number? source with
  | some n => some (numberLexeme source n)
  | none =>
    let n := word source
    if n > 0 then some (classifyWord mode (String.ofList (source.take n)), n)
    else symbolLexeme? mode c cs

/-- The kind and the length of the lexeme that starts with `c`. -/
def lexeme? (mode : LexMode) (margin : Option Nat) (c : Char) (cs : List Char) :
    Option (TokenKind × Nat) :=
  if c == '#' then some (.complement, 1)
  else if c == '$' then some (.inlineComment, 1 + toLineEnd cs)
  else if startsComment margin c cs then some (.comment, 1 + toLineEnd cs)
  else if isAsciiBlank c then some (.space, 1 + run isAsciiBlank cs)
  else if mode = .read then some (fileLexeme c cs)
  else wordLexeme? mode c cs

/-- The spaces at the start of the current line, as long as there is nothing else on it. -/
def marginStep (margin : Option Nat) (c : Char) : Option Nat :=
  if c == '\n' then some 0
  else if c == ' ' then margin.map (· + 1)
  else none

def marginAfter (margin : Option Nat) (cs : List Char) : Option Nat := cs.foldl marginStep margin

/-- The tokens of the text from a position on, behind `count` others. -/
def tokensFrom (mode : LexMode) (margin : Option Nat) (p : Position) (count : Nat) :
    List Char → Except LexError (List Token)
  | [] => .ok []
  | c :: cs =>
    if count ≥ Limits.tokens then .error (.tooManyTokens count)
    else match lexeme? mode margin c cs with
      | none => .error (.invalidCharacter c ⟨p, p.step c⟩)
      | some (kind, n) =>
        let text := c :: cs.take (n - 1)
        let span := Span.ofText p text
        if byteSize text > Limits.tokenBytes && !kind.isLayout then
          .error (.tokenTooLong (byteSize text) span)
        else
          match tokensFrom mode (marginAfter margin text) span.stop (count + 1)
              (cs.drop (n - 1)) with
          | .ok rest => .ok (⟨kind, String.ofList text, span⟩ :: rest)
          | .error e => .error e
termination_by cs => cs.length
decreasing_by simp only [List.length_drop, List.length_cons]; omega

end Lexer

/-- The tokens of a record. -/
def tokenize (mode : LexMode) (source : String) : Except LexError (List Token) :=
  Lexer.tokensFrom mode (some 0) .start 0 source.toList

/-! ## Events -/

def LexError.event : LexError → Event
  | invalidCharacter c span =>
    ((Event.error .invalidCharacter "Invalid character in record").withSpan span).withValue
      "character" c.toString
  | tokenTooLong _ span =>
    (Event.error .tokenTooLong "Token exceeds length limit").withSpan span
  | tooManyTokens _ =>
    (Event.error .tooManyTokens "Token limit exceeded").withValue "limit"
      (toString Limits.tokens)

/-- What is logged about the tokens of a record that starts at line `first`. -/
def tokenEvents (mode : LexMode) (first : Nat) (outcome : Except LexError (List Token)) :
    List Event :=
  match outcome with
  | .error e => [e.event]
  | .ok tokens =>
    let counts := TokenCounts.of tokens
    [(Event.debug "Record tokenized").withValues
        [("mode", mode.name), ("tokens", toString counts.all),
          ("comments", toString counts.comments), ("shortcuts", toString counts.shorthands)],
      (Event.success .tokenized "Tokenization completed").withValues
        [("tokens", toString tokens.length), ("line", toString first)]]

end TransportDeck
