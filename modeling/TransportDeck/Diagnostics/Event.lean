import TransportDeck.Diagnostics.Code
import TransportDeck.Limits
import TransportDeck.Source.Position
import TransportDeck.Text.Json

/-!
# Log events

An event has a level, a code, a message, perhaps a span, and context values sorted by their keys.
-/

namespace TransportDeck

inductive Level where
  | error
  | warning
  | info
  | debug
deriving Repr, DecidableEq

namespace Level

def all : List Level := [error, warning, info, debug]

def text : Level → String
  | error => "ERROR"
  | warning => "WARN"
  | info => "INFO"
  | debug => "DEBUG"

def rank : Level → Nat
  | error => 0
  | warning => 1
  | info => 2
  | debug => 3

/-- Whether a threshold lets events of a level pass. -/
def passes (threshold level : Level) : Bool := level.rank ≤ threshold.rank

end Level

structure Event where
  level : Level
  code : Code
  message : String
  span : Option Span
  context : List (String × String)
deriving Repr, DecidableEq

namespace Event

def of (level : Level) (code : Code) (message : String) : Event := ⟨level, code, message, none, []⟩

def error (code : Code) (message : String) : Event := of .error code message

def warning (code : Code) (message : String) : Event := of .warning code message

def success (code : Code) (message : String) : Event := of .info code message

def info (message : String) : Event := of .info .plainInfo message

def debug (message : String) : Event := of .debug .plainDebug message

/-- An event of a level, with the plain code of the level if none is given. -/
def ofLevel (level : Level) (code : Option Code) (message : String) : Event :=
  match level with
  | .error => error (code.getD .internalError) message
  | .warning => warning (code.getD .plainWarning) message
  | .info => success (code.getD .plainInfo) message
  | .debug => debug message

def withSpan (e : Event) (span : Span) : Event := { e with span := some span }

/-- The longest start of a text that has at most `limit` bytes. -/
def cutBytes (limit : Nat) : List Char → List Char
  | [] => []
  | c :: cs => if c.utf8Size ≤ limit then c :: cutBytes (limit - c.utf8Size) cs else []

/-- Puts a value at its key's place among sorted keys. -/
def insertValue (key value : String) : List (String × String) → List (String × String)
  | [] => [(key, value)]
  | (k, v) :: rest =>
    if key == k then (key, value) :: rest
    else if key < k then (key, value) :: (k, v) :: rest
    else (k, v) :: insertValue key value rest

/-- Context values are cut to the limit. -/
def withValue (e : Event) (key value : String) : Event :=
  { e with
    context :=
      insertValue key (String.ofList (cutBytes Limits.contextBytes value.toList)) e.context }

def withValues (e : Event) (values : List (String × String)) : Event :=
  values.foldl (fun e v => e.withValue v.1 v.2) e

/-- One line: level, code, message and where the span starts. -/
def line (e : Event) : String :=
  let place := match e.span with
    | some s => " at " ++ s.start.text
    | none => ""
  "[" ++ e.level.text ++ "] " ++ e.code.text ++ " - " ++ e.message ++ place

def yesNo (b : Bool) : String := if b then "true" else "false"

/-- Several lines, with what the register says of the code. -/
def detailed (e : Event) : String :=
  let c := e.code
  let handling :=
    if e.level = .error then
      "\n  Recoverable: " ++ yesNo c.isRecoverable ++ "\n  Requires halt: " ++ yesNo c.halts
    else ""
  let description :=
    if c.description != Code.unknownDescription then "\n  Description: " ++ c.description else ""
  let context :=
    if e.context.isEmpty then ""
    else "\n  Context:" ++ String.join (e.context.map fun v => "\n    " ++ v.1 ++ ": " ++ v.2)
  e.line ++ "\n  Category: " ++ c.category ++ "\n  Severity: " ++ c.severity.text ++
    handling ++ description ++ context

def errorMembers (c : Code) : Text.Json :=
  .obj [("description", .str c.description), ("recommended_action", .str c.action),
    ("recoverable", .bool c.isRecoverable), ("requires_halt", .bool c.halts)]

def spanMembers (s : Span) : Text.Json :=
  .obj [("end_column", .int s.stop.column), ("end_line", .int s.stop.line),
    ("start_column", .int s.start.column), ("start_line", .int s.start.line)]

/-- The event as one JSON object with sorted keys. -/
def json (e : Event) (timestamp : String) : Text.Json :=
  .obj <|
    [("category", .str e.code.category), ("code", .str e.code.text)] ++
    (if e.context.isEmpty then []
      else [("context", .obj (e.context.map fun v => (v.1, .str v.2)))]) ++
    (if e.level = .error then [("error_metadata", errorMembers e.code)] else []) ++
    [("level", .str e.level.text), ("message", .str e.message),
      ("severity", .str e.code.severity.text)] ++
    (match e.span with
      | some s => [("span", spanMembers s)]
      | none => []) ++
    [("timestamp", .str timestamp)]

end Event

end TransportDeck
