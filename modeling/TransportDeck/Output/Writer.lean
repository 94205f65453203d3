import TransportDeck.Input.ReadError
import TransportDeck.Output.Wrap

/-!
# Laying out a deck

The texts of the records are wrapped and put into their blocks. A blank line closes a block only
if something follows it.
-/

namespace TransportDeck

inductive WriteError where
  | unknownVersion (version : String)
  | tooNarrow (width : Nat)
  | transfer (path message : String)
deriving Repr, DecidableEq

namespace WriteError

def ofReadError : ReadError → WriteError
  | .unknownVersion version => unknownVersion version
  | e => transfer "" e.message

def message : WriteError → String
  | unknownVersion version => "Unsupported format version: " ++ version
  | tooNarrow width =>
    "Line width " ++ toString width ++ " leaves no room after the continuation indent"
  | transfer path message => "I/O error writing " ++ path ++ ": " ++ message

def code : WriteError → Code
  | unknownVersion _ => .unsupportedVersion
  | tooNarrow _ => .unwritable
  | transfer .. => .transferFailed

end WriteError

/-- A deck as the texts of its records. -/
structure DeckText where
  message : Option (List String)
  title : String
  cells : List String
  surfaces : List String
  data : List String
  /-- Whether a blank line closes the data block. -/
  terminated : Bool
deriving Repr, DecidableEq

/-- The columns that a deck may use, which leave room behind the indent of a continuation. -/
structure LineWidth where
  columns : Nat
  room : Limits.writtenIndent < columns

namespace LineWidth

def of (columns : Nat) : Except WriteError LineWidth :=
  if h : Limits.writtenIndent < columns then .ok ⟨columns, h⟩ else .error (.tooNarrow columns)

def ofVersion (v : Version) : Except WriteError LineWidth :=
  match v.width with
  | .ok columns => of columns
  | .error e => .error (.ofReadError e)

end LineWidth

namespace DeckText

def line (text : String) : Rendered := .ofText (text ++ "\n")

def blankLine (needed : Bool) : Rendered := .ofText (if needed then "\n" else "")

def front (d : DeckText) : Rendered :=
  (match d.message with
    | some lines => Rendered.concat (lines.map line) ++ blankLine true
    | none => .empty) ++ line d.title

def block (width : Nat) (records : List String) : Rendered :=
  Rendered.concat (records.map fun r => wrap width r ++ .ofText "\n")

/-- The text of a deck, and the warnings about lines that stay too wide. -/
def layOut (w : LineWidth) (d : DeckText) : Rendered :=
  d.front ++
  block w.columns d.cells ++ blankLine (!d.surfaces.isEmpty || !d.data.isEmpty) ++
  block w.columns d.surfaces ++ blankLine (!d.data.isEmpty) ++
  block w.columns d.data ++ blankLine d.terminated

end DeckText

end TransportDeck
