import TransportDeck.Deck.Processing
import TransportDeck.Deck.Summary
import TransportDeck.Diagnostics.Collector
import TransportDeck.Text.Escape

/-!
# The command line

A run of the program as a function: from the arguments, the environment and the files to what is
printed, which file is written and the exit code.
-/

namespace TransportDeck.CommandLine

/-- What a run is given. -/
structure Invocation where
  program : String
  arguments : List String
  environment : String → Option String
  files : Files.Source
  /-- Why a file cannot be written. -/
  writeFault? : String → Option Files.Fault
  time : String

/-- What a run prints. -/
structure Printed where
  out : String
  err : String
deriving Repr, DecidableEq

namespace Printed

def nothing : Printed := ⟨"", ""⟩

def append (a b : Printed) : Printed := ⟨a.out ++ b.out, a.err ++ b.err⟩

instance : Append Printed := ⟨append⟩

def concat (ps : List Printed) : Printed := ps.foldl append nothing

def outLine (text : String) : Printed := ⟨text ++ "\n", ""⟩

def errLine (text : String) : Printed := ⟨"", text ++ "\n"⟩

def errText (text : String) : Printed := ⟨"", text⟩

end Printed

open Printed

/-- What a run gives: its exit code, what it prints, and the path and the text of the file that
it writes. -/
structure Outcome where
  exit : Nat
  printed : Printed
  written : Option (String × String)
deriving Repr, DecidableEq

def Outcome.behind (p : Printed) (o : Outcome) : Outcome := { o with printed := p ++ o.printed }

/-- The text of a file behind the run. -/
def Outcome.textAt? (o : Outcome) (files : Files.Source) (path : String) : Option String :=
  match o.written.filter fun w => Files.components w.1 == Files.components path with
  | some (_, text) => some text
  | none => files.text? path

/-! ## Arguments -/

structure Options where
  check : Bool
  failFast : Bool
  json : Bool
  version : Option Version
  out : Option String

def Options.none : Options := ⟨false, false, false, .none, .none⟩

/-- Reads options one after the other. What does not read is reported and left out. -/
def readOptions (o : Options) : List String → Options × Printed
  | [] => (o, nothing)
  | "--check" :: rest => readOptions { o with check := true } rest
  | "--fail-fast" :: rest => readOptions { o with failFast := true } rest
  | "--json" :: rest => readOptions { o with json := true } rest
  | ["--version"] => (o, errLine "Warning: --version requires X.Y.Z")
  | "--version" :: text :: rest =>
    match Version.read? text with
    | some v => readOptions { o with version := some v } rest
    | none =>
      let (o, p) := readOptions o rest
      (o, errLine ("Warning: Invalid version '" ++ text ++ "', using default") ++ p)
  | ["--out"] => (o, errLine "Warning: --out requires a file name")
  | "--out" :: path :: rest => readOptions { o with out := some path } rest
  | other :: rest =>
    let (o, p) := readOptions o rest
    (o, errLine ("Warning: Unknown option '" ++ other ++ "'") ++ p)

/-- Options add to what the environment asks for. -/
def Options.processing (o : Options) (p : Preferences) : ProcessOptions :=
  let base := ProcessOptions.ofPreferences p
  { base with
    check := base.check || o.check
    failFast := base.failFast || o.failFast
    version := o.version.getD base.version }

/-! ## Logging -/

def eventLine (p : Preferences) (time : String) (e : Event) : String :=
  if p.structuredLog then (e.json time).compact else e.line

/-- Events as they appear on the console. -/
def showEvents (p : Preferences) (time : String) (events : List Event) : Printed :=
  if p.consoleLog then
    Printed.concat <| (events.filter fun e => p.level.passes e.level).map fun e =>
      errLine (eventLine p time e)
  else nothing

def showEntries (p : Preferences) (time : String) (entries : Array Entry) : Printed :=
  showEvents p time (entries.toList.map (·.event))

def startEvent : Event := .success .started "Global logging system initialized"

def collect (entries : Array Entry) : Collector :=
  entries.foldl (fun c e =>
    match e.file with
    | some path => c.record path e.event
    | none => c) .empty

/-- The report on all that was collected, if it says anything. -/
def showCollected (c : Collector) : Printed :=
  if Text.allBlank c.report.toList then nothing else errLine ("\n" ++ c.report)

/-! ## Texts -/

def usage (program : String) : Printed :=
  errLine ("Usage: " ++ program ++ " <input> [options]") ++
    errLine ("       " ++ program ++ " --help")

def help (program : String) : Printed :=
  Printed.concat <| [
    "mcnp_syntax v0.1.0",
    "Format-preserving round trip of fixed-column input decks",
    "",
    "USAGE:",
    "    " ++ program ++ " <input> [options]",
    "",
    "OPTIONS:",
    "    --help              Show this help message",
    "    --check             Report record errors as warnings and keep going",
    "    --fail-fast         Stop at the first record that fails to parse",
    "    --version X.Y.Z     Format version for column limits (default: 6.3.0)",
    "    --out FILE          Write the round-tripped deck to FILE",
    "    --json              Print a JSON summary instead of text",
    "",
    "EXAMPLES:",
    "    " ++ program ++ " deck.i --check",
    "    " ++ program ++ " deck.i --version 6.1.0 --out copy.i"].map outLine

def noFile (path : String) : Printed :=
  errLine "Error: Input must be a file" ++ errLine ("  File: " ++ path)

/-! ## Failure -/

def explain : DeckError → Printed
  | .reading e => errLine "Block reading failed:" ++ errLine ("  " ++ e.message)
  | .rejected r => errLine "Record could not be parsed:" ++ errText r.render
  | e => errLine (e.code.category ++ " error:") ++ errLine ("  " ++ e.message)

def advice (c : Code) : Printed :=
  if c.action == Code.noAction then nothing else errLine ("  = help: " ++ c.action)

def failure (e : DeckError) (c : Collector) : Outcome :=
  ⟨1, errLine ("\nFAILED: " ++ e.message) ++ explain e ++ advice e.code ++ showCollected c, none⟩

/-- A failure to write, as its parts. -/
def writeErrorParts : WriteError → String
  | .unknownVersion v => "UnsupportedVersion \x7b version: " ++ Text.quoted v ++ " \x7d"
  | .tooNarrow width => "WidthTooSmall \x7b width: " ++ toString width ++ " \x7d"
  | .transfer path message =>
    "IoError \x7b path: " ++ Text.quotedPath path ++ ", message: " ++ Text.quoted message ++ " \x7d"

def writeFailure (e : WriteError) : Outcome :=
  ⟨1, errLine ("Error: Writer(" ++ writeErrorParts e ++ ")"), none⟩

/-! ## Success -/

/-- What is logged while a deck is written. -/
def writeEvents (d : Deck) (written : Rendered) : List Event :=
  written.warnings.map (·.event) ++
    [(Event.debug "Deck laid out").withValues
      [("cells", toString (d.ownCount .cell)), ("surfaces", toString (d.ownCount .surface)),
        ("data", toString (d.ownCount .data))]]

def writtenEvent (path : String) (written : Rendered) : Event :=
  (Event.success .outputWritten "Deck written").withValues
    [("path", path), ("bytes", toString written.text.utf8ByteSize)]

/-- The report for a reader. -/
def describe (path : String) (o : Options) (d : Deck) (written : Rendered) (c : Collector) :
    Printed :=
  outLine ("Processing file: " ++ path) ++
    Printed.concat (d.errors.map fun r => errLine r.render) ++
    Printed.concat ((written.warnings ++ d.warnings).map fun w => errLine w.text) ++
    outLine (Summary.of d).countLine ++
    (match o.out with
      | some out => outLine ("  Output written to " ++ out)
      | none => nothing) ++
    showCollected c

def verdict (json : Bool) (d : Deck) : Printed :=
  if d.hasErrors then
    errLine ("\nFAILED: " ++ toString d.errors.length ++ " record(s) could not be parsed")
  else if json then nothing
  else outLine "\nSUCCESS: Deck parsed and written back"

def report (i : Invocation) (path : String) (o : Options) (d : Deck) (written : Rendered)
    (c : Collector) : Outcome :=
  let body :=
    if o.json then outLine (((Summary.of d).json i.time).pretty 0)
    else describe path o d written c
  ⟨if d.hasErrors then 1 else 0, body ++ verdict o.json d, o.out.map (·, written.text)⟩

/-- Writes the deck, into a file if one is named, and reports. -/
def finish (i : Invocation) (p : Preferences) (path : String) (o : Options) (d : Deck)
    (c : Collector) : Outcome :=
  match d.write with
  | .error (.writing e) => writeFailure e
  | .error e => failure e c
  | .ok written =>
    let logged := writeEvents d written
    match o.out with
    | none => (report i path o d written c).behind (showEvents p i.time logged)
    | some out =>
      match i.writeFault? out with
      | some fault =>
        (writeFailure (.transfer out fault.message)).behind (showEvents p i.time logged)
      | none =>
        (report i path o d written c).behind
          (showEvents p i.time (logged ++ [writtenEvent out written]))

/-! ## Runs -/

/-- The first file that a run asks for and cannot find. -/
def missing? (i : Invocation) : Option String :=
  match i.arguments with
  | [] => none
  | path :: arguments =>
    let o := (readOptions .none arguments).1.processing (.ofEnvironment i.environment)
    match RawDeck.ofFile o.reading i.files path with
    | .error (.fileNotFound p) => some p
    | _ => none

def runOn (i : Invocation) (p : Preferences) (path : String) (arguments : List String) :
    Outcome :=
  if !i.files.isFile path then ⟨1, noFile path, none⟩
  else
    let (o, complaints) := readOptions .none arguments
    let (outcome, entries) := (Processing.file (o.processing p) i.files path).run #[]
    let c := collect entries
    let rest := match outcome with
      | .ok d => finish i p path o d c
      | .error e => failure e c
    rest.behind (complaints ++ showEntries p i.time entries)

def run (i : Invocation) : Outcome :=
  let p := Preferences.ofEnvironment i.environment
  let rest : Outcome := match i.arguments with
    | [] => ⟨1, usage i.program, none⟩
    | "--help" :: _ => ⟨0, help i.program, none⟩
    | path :: arguments => runOn i p path arguments
  rest.behind (showEvents p i.time [startEvent])

end TransportDeck.CommandLine
