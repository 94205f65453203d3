import TransportDeck.Deck.Basic

/-!
# Summaries

The counts of a deck and what was reported about it, as a table and as JSON.
-/

namespace TransportDeck

open Text

structure Summary where
  title : String
  version : Version
  cells : Nat
  surfaces : Nat
  data : Nat
  verbatim : Nat
  /-- Records of other files. -/
  included : Nat
  errors : List Rejection
  warnings : List Warning

namespace Summary

def countBlock (d : Deck) (b : Block) : Nat := d.records.countP (·.block = b)

def of (d : Deck) : Summary where
  title := d.title
  version := d.version
  cells := countBlock d .cell
  surfaces := countBlock d .surface
  data := countBlock d .data
  verbatim := d.records.countP (·.record.isVerbatim)
  included := d.records.countP (!·.isOwn)
  errors := d.errors
  warnings := d.warnings

/-- No card was rejected, not even with a warning only. -/
def isClean (s : Summary) : Bool :=
  s.errors.isEmpty && !s.warnings.any (·.code == .downgradedError)

def optional (n : Option Nat) : Json := (n.map fun n => .int n).getD .null

def errorJson (r : Rejection) : Json :=
  .obj [("code", .str r.code.text), ("message", .str ((r.first?.map (·.message)).getD "")),
    ("path", .str r.path), ("line", .int r.line), ("column", optional r.column?)]

def warningJson (w : Warning) : Json :=
  .obj [("code", .str w.code.text), ("message", .str w.message), ("line", optional w.line)]

def members (s : Summary) : List (String × Json) := [
  ("title", .str s.title), ("version", .str s.version.text), ("cells", .int s.cells),
  ("surfaces", .int s.surfaces), ("data", .int s.data), ("opaque", .int s.verbatim),
  ("included", .int s.included), ("errors", .arr (s.errors.map errorJson)),
  ("warnings", .arr (s.warnings.map warningJson))]

/-- The summary with the time at which it was made. -/
def json (s : Summary) (time : String) : Json :=
  .obj (s.members ++ [("generated_at", .str time)])

def countLine (s : Summary) : String :=
  "  " ++ toString s.cells ++ " cells, " ++ toString s.surfaces ++ " surfaces, " ++
    toString s.data ++ " data records (" ++ toString s.verbatim ++ " kept as written, " ++
    toString s.included ++ " included)"

end Summary

end TransportDeck
