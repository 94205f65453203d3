import TransportDeck.Deck.Basic
import TransportDeck.Diagnostics.FileContext
import TransportDeck.Grammar.Records
import TransportDeck.Input.Reader
import TransportDeck.Preferences

/-!
# Processing decks

A deck is read and each of its cards is judged. A card that cannot be read is an error and is kept
verbatim, so that the deck can still be written back. Checking reports such cards as warnings;
failing fast stops at the first one; what is not supported always stops the work.
-/

namespace TransportDeck

structure ProcessOptions where
  check : Bool
  failFast : Bool
  version : Version
  replaceNonAscii : Bool
  tolerance : Tolerance

namespace ProcessOptions

/-- A version that does not read leaves the standard one. -/
def ofPreferences (p : Preferences) : ProcessOptions where
  check := p.check
  failFast := p.failFast
  version := (Version.read? p.version).getD .standard
  replaceNonAscii := p.replaceNonAscii
  tolerance := p.tolerance

def reading (o : ProcessOptions) : ReadOptions := ⟨o.version, o.replaceNonAscii⟩

end ProcessOptions

/-! ## Judging cards -/

/-- What becomes of a card. -/
structure Verdict where
  card : Card
  record : Record
  warnings : List Warning
  rejection : Option Rejection

namespace Verdict

def verbatimWarning (c : Card) (v : VerbatimRecord) : Warning :=
  (Warning.of .keptVerbatim
    ("'" ++ v.name.getD "unnamed" ++ "' records are kept as written")).inFile c.path c.firstLine

def downgraded (c : Card) (r : Rejection) : Warning :=
  (Warning.of .downgradedError r.message).inFile c.path r.line

/-- A card that cannot be read is kept verbatim. -/
def of (check : Bool) (c : Card) : Except (List SyntaxError) Record → Verdict
  | .ok (.verbatim v) => ⟨c, .verbatim v, [verbatimWarning c v], none⟩
  | .ok r => ⟨c, r, [], none⟩
  | .error errors =>
    let r := Rejection.of c errors
    ⟨c, .verbatim (.ofText c.text), if check then [downgraded c r] else [], some r⟩

/-- The rejection that stops the work, if there is one. -/
def fatal? (o : ProcessOptions) (v : Verdict) : Option Rejection :=
  v.rejection.filter fun r => r.isUnsupported || o.failFast

end Verdict

/-- The deck that the cards make up as they were judged. -/
def Deck.ofVerdicts (o : ProcessOptions) (raw : RawDeck) (vs : List Verdict) : Deck where
  message := raw.message
  title := raw.title.getD ""
  records := vs.map fun v => .of v.card v.record
  warnings := raw.warnings ++ vs.flatMap (·.warnings)
  errors := if o.check then [] else vs.filterMap (·.rejection)
  terminated := raw.terminated
  version := o.version
  tolerance := o.tolerance

/-! ## Events -/

/-- What is logged while a card is read. -/
def Card.parseEvents (c : Card) (outcome : Except (List SyntaxError) Record) : List Event :=
  let g := Grammar.ofCard c
  let tokens := tokenize g.mode c.text
  tokenEvents g.mode c.firstLine tokens ++
  (match tokens with
    | .ok ts =>
      [(Event.debug "Creating record parser").withValues
        [("kind", g.kind.name), ("tokens", toString ts.length)]]
    | .error _ => []) ++
  match outcome with
  | .ok (.verbatim v) =>
    [(Event.debug "Keeping data record as raw text").withValues
      [("prefix", v.name.getD ""), ("line", toString c.firstLine)]]
  | .ok r =>
    [(Event.success .recordParsed "Record parsed").withValues
      [("kind", r.kindName), ("line", toString c.firstLine)]]
  | .error _ => []

/-- What is logged about a verdict. A fatal one brings no warning. -/
def Verdict.events (o : ProcessOptions) (v : Verdict) : List Event :=
  (v.rejection.map (·.event)).toList ++
    if (v.fatal? o).isSome then [] else v.warnings.map (·.event)

def processedEvent (d : Deck) : Event :=
  (Event.success .blocksRead "Deck processed").withValues
    [("records", toString d.records.length), ("errors", toString d.errors.length),
      ("warnings", toString d.warnings.length)]

/-! ## The work on a deck -/

/-- Work that may stop, and the log entries made on the way. -/
abbrev Processing := ExceptT DeckError (StateM (Array Entry))

namespace Processing

/-- Logs events in a file context, or in none. -/
def log (context : Option FileContext) (events : List Event) : Processing Unit :=
  modify fun entries => entries ++ (events.map (Entry.mark context)).toArray

/-- Reads a deck in the context of its file. -/
def reading (path : String) (work : Reading RawDeck) : Processing RawDeck := do
  let (outcome, report) := work.run .empty
  log (some ⟨path, 0⟩) report.events.toList
  match outcome with
  | .ok raw => return raw
  | .error e => throw (.reading e)

def judge (o : ProcessOptions) (c : Card) : Processing Verdict := do
  let outcome := c.parse
  let v := Verdict.of o.check c outcome
  log (some ⟨c.path, c.depth⟩) (c.parseEvents outcome ++ v.events o)
  match v.fatal? o with
  | some r => throw (.rejected r)
  | none => return v

def judgeAll (o : ProcessOptions) (raw : RawDeck) : Processing Deck := do
  let d := Deck.ofVerdicts o raw (← raw.cards.mapM (judge o))
  log none [processedEvent d]
  return d

def text (o : ProcessOptions) (files : Files.Source) (path text : String) : Processing Deck := do
  judgeAll o (← reading path (Reading.readText o.reading files path text.toList))

def file (o : ProcessOptions) (files : Files.Source) (path : String) : Processing Deck := do
  log none [(Event.info "Processing deck").withValues
    [("path", path), ("version", o.version.text)]]
  judgeAll o (← reading path (Reading.readFile o.reading files path))

end Processing

namespace Deck

/-- The deck in a text. -/
def ofText (o : ProcessOptions) (files : Files.Source) (path text : String) :
    Except DeckError Deck := ((Processing.text o files path text).run #[]).1

/-- The deck in a file. -/
def ofFile (o : ProcessOptions) (files : Files.Source) (path : String) : Except DeckError Deck :=
  ((Processing.file o files path).run #[]).1

end Deck

end TransportDeck
