import TransportDeck.Diagnostics.Warning
import TransportDeck.Files.Bytes
import TransportDeck.Input.Card
import TransportDeck.Input.ReadError

/-!
# Reading decks

A deck is an optional message, a title, and three blocks of cards with blank lines between them.
The cards of a file come first, then those of the files that its cards ask for, depth first.
-/

namespace TransportDeck

open Text

/-- How decks are read. -/
structure ReadOptions where
  version : Version
  replaceNonAscii : Bool
deriving Repr, DecidableEq

/-- What reading a deck gives. -/
structure RawDeck where
  message : Option (List String)
  title : Option String
  cards : List Card
  warnings : List Warning
  /-- Whether a blank line closes the data block of the root file. -/
  terminated : Bool
deriving Repr, DecidableEq

/-- What is reported while a deck is read. -/
structure ReadLog where
  warnings : Array Warning
  events : Array Event
  /-- Lines behind the data block are reported once. -/
  extraReported : Bool

def ReadLog.empty : ReadLog := ⟨#[], #[], false⟩

/-- Reading stops at the first error; what was reported before it is kept. -/
abbrev Reading := ExceptT ReadError (StateM ReadLog)

namespace Reading

def log (e : Event) : Reading Unit := modify fun r => { r with events := r.events.push e }

def warn (w : Warning) : Reading Unit :=
  modify fun r =>
    { r with warnings := r.warnings.push w, events := r.events.push w.event }

/-- Stops with an error and an event that tells of it. -/
def fail {α : Type} (e : ReadError) (message : String) (values : List (String × String)) :
    Reading α := do
  log ((Event.error e.code message).withValues values)
  throw e

/-! ## Files -/

def decode (options : ReadOptions) (path : String) (bytes : List Nat) : Reading (List Char) :=
  match Files.decode bytes with
  | .ok cs => return cs
  | .error m =>
    if options.replaceNonAscii then return Files.decodeLossy bytes
    else fail (.invalidEncoding path m.message) "Input is not valid UTF-8" [("path", path)]

/-- The text of a file. -/
def load (options : ReadOptions) (files : Files.Source) (path : String) :
    Reading (List Char) := do
  match files path with
  | .error fault => fail (.ofFault path fault) "Cannot access input" [("path", path)]
  | .ok .directory => throw (.ofFault path .isDirectory)
  | .ok (.file size bytes) =>
    if size > Limits.fileSize then
      fail (.fileTooLarge size) "Input exceeds size limit"
        [("path", path), ("size", toString size)]
    else
      let cs ← decode options path bytes
      log ((Event.success .fileRead "Input file loaded").withValues
        [("path", path), ("bytes", toString size)])
      return cs

/-! ## Lines -/

def normalizeLine (options : ReadOptions) (path : String) (number : Nat) (line : List Char) :
    Reading String := do
  let line := Line.expandTabs line
  if options.replaceNonAscii && !line.all Line.isAscii then
    warn ((Warning.of .replacedCharacter "Non-ASCII characters replaced with spaces").inFile
      path number)
    return String.ofList (Line.blankOut line)
  else return String.ofList line

/-- The lines of a text with their numbers. -/
def numberedLines (options : ReadOptions) (path : String) (text : List Char) :
    Reading (List (Nat × String)) :=
  ((lines text).zipIdx 1).mapM fun (line, number) =>
    return (number, ← normalizeLine options path number line)

/-- The line as a card keeps it: without blanks at its end, and cut at the width of the version
unless only a comment lies behind it. -/
def cutLine (options : ReadOptions) (width : Nat) (path : String) (number : Nat)
    (line : String) : Reading String := do
  let kept := trimEnd line.toList
  if kept.length ≤ width || Line.isComment line || (kept.take width).contains '$' then
    return String.ofList kept
  else
    warn ((Warning.of .lineOverrun
      ("Line exceeds " ++ toString width ++ " columns for version " ++ options.version.text ++
        " and was truncated")).inFile path number)
    return String.ofList (trimEnd (kept.take width))

/-! ## Cards -/

/-- Where a file is cut: its number of closed blocks, and the lines that belong to one card. -/
structure Scan where
  block : Nat
  pending : Array String
  firstLine : Nat
  /-- The line before asks for more. -/
  continued : Bool
  /-- There was a line of the block that is no comment. -/
  hasCode : Bool
  cards : Array Card

def Scan.start (block : Block) : Scan := ⟨block.index, #[], 0, false, false, #[]⟩

/-- What the lines of one file share. -/
structure Place where
  options : ReadOptions
  width : Nat
  path : String
  depth : Nat

/-- The pending lines become a card. -/
def flush (place : Place) (s : Scan) : Reading Scan := do
  if s.pending.isEmpty then return s
  else
    let card : Card :=
      ⟨.ofIndex s.block, s.pending.toList, place.path, s.firstLine, place.depth⟩
    match card.target? with
    | some target =>
      log ((Event.debug "READ directive queued").withValues
        [("file", target), ("block", card.block.name)])
    | none => pure ()
    return { s with pending := #[], continued := false, cards := s.cards.push card }

/-- Whether a line starts a card, not being the first code line of its block. -/
def startsCard (s : Scan) (line : String) : Bool :=
  !allBlank (Line.firstColumns line) && !s.continued && !Line.isComment line && s.hasCode &&
    !s.pending.isEmpty

def asksForMore (line : String) : Bool :=
  match line.toList.reverse with
  | '&' :: ' ' :: _ => true
  | _ => false

/-- A line behind the data block. -/
def skipLine (place : Place) (number : Nat) (line : String) : Reading Unit := do
  if !Line.isBlank line && !(← get).extraReported then
    modify fun r => { r with extraReported := true }
    warn ((Warning.of .extraBlocks "Content after the data block is ignored").inFile
      place.path number)

/-- A blank line closes a block. -/
def closeBlock (place : Place) (number : Nat) (s : Scan) : Reading Scan := do
  let s ← flush place s
  log ((Event.debug "Block boundary").withValues
    [("line", toString number), ("block", toString (s.block + 1))])
  return { s with block := s.block + 1, hasCode := false, continued := false }

/-- A line of a block. -/
def addLine (place : Place) (number : Nat) (line : String) (s : Scan) : Reading Scan := do
  let s ← if startsCard s line then flush place s else pure s
  if !Line.isComment line && (Line.firstColumns line).contains '#' then
    fail (.verticalFormat place.path number) "Vertical input format found"
      [("path", place.path), ("line", toString number)]
  else
    let kept ← cutLine place.options place.width place.path number line
    return { s with
      continued := asksForMore kept
      hasCode := s.hasCode || !Line.isComment line
      firstLine := if s.pending.isEmpty then number else s.firstLine
      pending := s.pending.push kept }

def scanLine (place : Place) (s : Scan) (numbered : Nat × String) : Reading Scan := do
  let (number, line) := numbered
  if s.block ≥ Limits.blocks then
    skipLine place number line
    return s
  else if Line.isBlank line then closeBlock place number s
  else addLine place number line s

/-- The cards of one file, whose lines start in a block, and the number of blocks closed. -/
def scan (place : Place) (block : Block) (lines : List (Nat × String)) :
    Reading (List Card × Nat) := do
  let s ← lines.foldlM (scanLine place) (Scan.start block)
  let s ← flush place s
  return (s.cards.toList, s.block)

/-! ## Included files -/

/-- The blocks and the files that cards ask for. -/
def targets (cards : List Card) : List (Block × String) :=
  cards.filterMap fun c => c.target?.map (c.block, ·)

/-- The cards of a file that a card asks for, and of the files below it. `room` is how much
deeper the files may be nested. -/
def includeFile (options : ReadOptions) (width : Nat) (files : Files.Source) (directory : String) :
    (room : Nat) → (depth : Nat) → Block × String → Reading (List Card)
  | 0, _, (_, target) =>
    let path := Files.join directory target
    fail (.includeTooDeep path) "READ nesting limit reached" [("path", path)]
  | room + 1, depth, (block, target) => do
    let path := Files.join directory target
    let lines ← numberedLines options path (← load options files path)
    let (cards, _) ← scan ⟨options, width, path, depth⟩ block lines
    let below ← (targets cards).mapM (includeFile options width files directory room (depth + 1))
    return cards ++ below.flatten

/-! ## The front of a deck -/

/-- Upper case, as far as it can give the letters of a heading. -/
def foldUpper (c : Char) : List Char :=
  if c == 'ß' then ['S', 'S'] else if c == 'ſ' then ['S'] else [c.toUpper]

def opensMessage (line : String) : Bool :=
  "MESSAGE:".toList.isPrefixOf (line.toList.flatMap foldUpper)

/-- The message runs up to a blank line, which goes with it. -/
def splitMessage (lines : List (Nat × String)) :
    Option (List String) × List (Nat × String) :=
  match lines with
  | [] => (none, [])
  | first :: _ =>
    if opensMessage first.2 then
      (some ((lines.takeWhile (!Line.isBlank ·.2)).map fun l => trimEndString l.2),
        (lines.dropWhile (!Line.isBlank ·.2)).drop 1)
    else (none, lines)

/-! ## Decks -/

/-- Reads a deck from its text; the path names it and is where other files are looked for. -/
def readText (options : ReadOptions) (files : Files.Source) (path : String) (text : List Char) :
    Reading RawDeck := do
  let width ← match options.version.width with
    | .ok n => pure n
    | .error e => throw e
  let lines ← numberedLines options path text
  if lines.all (Line.isBlank ·.2) then
    fail (.emptyFile path) "Input has no content" [("path", path)]
  else
    let (message, rest) := splitMessage lines
    let (cards, closed) ← scan ⟨options, width, path, 0⟩ .cell (rest.drop 1)
    let below ← (targets cards).mapM
      (includeFile options width files (Files.parent path) Limits.includeDepth 1)
    let all := cards ++ below.flatten
    let warnings := (← get).warnings
    log ((Event.success .blocksRead "Input split into records").withValues
      [("path", path), ("records", toString all.length), ("warnings", toString warnings.size)])
    return ⟨message, rest.head?.map fun l => trimEndString l.2, all, warnings.toList,
      closed ≥ Limits.blocks⟩

def readFile (options : ReadOptions) (files : Files.Source) (path : String) : Reading RawDeck := do
  match options.version.width with
  | .ok _ => readText options files path (← load options files path)
  | .error e => throw e

end Reading

namespace RawDeck

/-- Reads a deck from its text. -/
def ofText (options : ReadOptions) (files : Files.Source) (path text : String) :
    Except ReadError RawDeck :=
  ((Reading.readText options files path text.toList).run .empty).1

/-- Reads a deck from its file. -/
def ofFile (options : ReadOptions) (files : Files.Source) (path : String) :
    Except ReadError RawDeck :=
  ((Reading.readFile options files path).run .empty).1

end RawDeck

end TransportDeck
