import TransportDeck.Diagnostics.Event
import TransportDeck.Files.Path

/-!
# Collected events

Errors and warnings by the file that they were raised for, in the order of the paths, up to a
number of events a file and in all; and the report made of them.
-/

namespace TransportDeck

structure FileEvents where
  path : String
  events : Array Event

namespace FileEvents

def errors (f : FileEvents) : List Event := f.events.toList.filter (·.level = .error)

def warnings (f : FileEvents) : List Event := f.events.toList.filter (·.level = .warning)

/-- One event past the limit is replaced by a note; further ones are dropped. -/
def add (f : FileEvents) (e : Event) : FileEvents :=
  if f.events.size < Limits.eventsPerFile then { f with events := f.events.push e }
  else if f.events.size = Limits.eventsPerFile then
    { f with events := f.events.push (Event.warning .plainWarning
        ("Too many events for file (limit: " ++ toString Limits.eventsPerFile ++ ")")) }
  else f

end FileEvents

structure Collector where
  files : List FileEvents

namespace Collector

def empty : Collector := ⟨[]⟩

/-- The total of a count over all files. -/
def total (count : FileEvents → Nat) (c : Collector) : Nat :=
  c.files.foldr (fun f n => count f + n) 0

def size (c : Collector) : Nat := c.total (·.events.size)

def addTo (path : String) (e : Event) : List FileEvents → List FileEvents
  | [] => [FileEvents.add ⟨path, #[]⟩ e]
  | f :: fs =>
    match Files.comparePaths path f.path with
    | .eq => f.add e :: fs
    | .lt => FileEvents.add ⟨path, #[]⟩ e :: f :: fs
    | .gt => f :: addTo path e fs

def record (c : Collector) (path : String) (e : Event) : Collector :=
  if c.size ≥ Limits.collectedEvents then c else ⟨addTo path e c.files⟩

/-- Counts over all files. A file with errors is not counted among those with warnings. -/
structure Summary where
  files : Nat
  failedFiles : Nat
  filesWithWarnings : Nat
  errors : Nat
  warnings : Nat
deriving Repr, DecidableEq

def summary (c : Collector) : Summary where
  files := c.files.length
  failedFiles := (c.files.filter fun f => !f.errors.isEmpty).length
  filesWithWarnings :=
    (c.files.filter fun f => f.errors.isEmpty && !f.warnings.isEmpty).length
  errors := c.total (·.errors.length)
  warnings := c.total (·.warnings.length)

/-! ## The report -/

def place (path : String) (e : Event) : String :=
  match e.span with
  | some s => " --> " ++ path ++ ":" ++ s.start.text
  | none => ""

def errorLines (path : String) (e : Event) : String :=
  let values := e.context.filter fun v => v.1 != "file" && v.1 != "file_id"
  "error[" ++ e.code.text ++ "]: " ++ e.message ++ place path e ++ "\n" ++
  "  = severity: " ++ e.code.severity.text ++ ", category: " ++ e.code.category ++ "\n" ++
  String.join (values.map fun v => "  = " ++ v.1 ++ ": " ++ v.2 ++ "\n") ++
  (if e.code.action != Code.noAction then "  = help: " ++ e.code.action ++ "\n" else "")

def warningLine (path : String) (e : Event) : String :=
  "warning[" ++ e.code.text ++ "]: " ++ e.message ++ place path e ++ "\n"

def fileReport (f : FileEvents) : String :=
  if f.errors.isEmpty && f.warnings.isEmpty then ""
  else
    "Checking " ++ f.path ++ "...\n" ++ String.join (f.errors.map (errorLines f.path)) ++
      String.join (f.warnings.map (warningLine f.path)) ++ "\n"

/-- Errors before warnings, file by file, and the totals. -/
def report (c : Collector) : String :=
  let s := c.summary
  String.join (c.files.map fileReport) ++
  (if s.errors > 0 then "Total errors: " ++ toString s.errors ++ "\n" else "") ++
  (if s.warnings > 0 then "Total warnings: " ++ toString s.warnings ++ "\n" else "")

end Collector

end TransportDeck
