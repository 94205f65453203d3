import Std.Time.DateTime
import Std.Time.Format
import TransportDeck.CommandLine

/-!
# The program

Fetches the files that a run asks for, runs it, and does what the outcome says.
-/

namespace TransportDeck.Disk

open CommandLine Files

/-- The number of the system error that a directory was opened as a file. -/
def directoryCode : UInt32 := 21

def faultOf : IO.Error → Fault
  | .noFileOrDirectory .. => .notFound
  | .permissionDenied .. => .denied
  | .inappropriateType _ code _ =>
    if code == directoryCode || code == 0 - directoryCode then .isDirectory else .notDirectory
  | e => .other (toString e)

/-- What stands at a path. -/
def look (path : String) : IO (Except Fault Files.Entry) := do
  try
    let bytes ← IO.FS.readBinFile path
    return .ok (.file bytes.size (bytes.toList.map UInt8.toNat))
  catch e =>
    let fault := faultOf e
    return if fault = .isDirectory then .ok .directory else .error fault

/-- The files that have been looked at. -/
abbrev Known := List (String × Except Fault Files.Entry)

def Known.source (known : Known) : Files.Source := fun path =>
  (known.lookup path).getD (.error .notFound)

/-- Looks at one file after the other until nothing is missing. -/
partial def gather (i : Invocation) (known : Known) : IO Known := do
  match missing? { i with files := known.source } with
  | none => return known
  | some path =>
    if (known.lookup path).isSome then return known
    else gather i ((path, ← look path) :: known)

def readEnvironment : IO (List (String × String)) :=
  Preferences.names.filterMapM fun name => return (← IO.getEnv name).map (name, ·)

/-- The time of the run. -/
def now : IO String := do
  let time := Std.Time.DateTime.ofTimestamp (← Std.Time.Timestamp.now) .UTC
  return time.toISO8601String

/-- Writes a file, or says why it cannot be written. -/
def write (path text : String) : IO (Option Fault) := do
  try
    IO.FS.writeFile path text
    return none
  catch e => return some (faultOf e)

/-- The outcome of a run, after its file has been written. -/
def settle (i : Invocation) : IO Outcome := do
  let outcome := run i
  match outcome.written with
  | none => return outcome
  | some (path, text) =>
    match ← write path text with
    | none => return outcome
    | some fault => return run { i with writeFault? := fun _ => some fault }

def execute (arguments : List String) : IO UInt32 := do
  let environment ← readEnvironment
  let i : Invocation :=
    ⟨"mcnp_syntax", arguments, fun name => environment.lookup name, Known.source [], fun _ => none,
      ← now⟩
  let outcome ← settle { i with files := (← gather i []).source }
  IO.eprint outcome.printed.err
  IO.print outcome.printed.out
  return outcome.exit.toUInt32

end TransportDeck.Disk

def main (arguments : List String) : IO UInt32 := TransportDeck.Disk.execute arguments
