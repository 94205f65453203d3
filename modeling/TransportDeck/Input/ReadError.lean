import TransportDeck.Diagnostics.Code
import TransportDeck.Files.Store
import TransportDeck.Input.Version
import TransportDeck.Limits

/-!
# Why a deck cannot be read
-/

namespace TransportDeck

inductive ReadError where
  | fileNotFound (path : String)
  | denied (path : String)
  | fileTooLarge (size : Nat)
  | emptyFile (path : String)
  | invalidEncoding (path message : String)
  | transfer (path message : String)
  | includeTooDeep (path : String)
  /-- A `#` in the first columns starts the column format. -/
  | verticalFormat (path : String) (line : Nat)
  | unknownVersion (version : String)
deriving Repr, DecidableEq

namespace ReadError

def ofFault (path : String) : Files.Fault → ReadError
  | .notFound => fileNotFound path
  | .denied => denied path
  | .other message => transfer path message

def message : ReadError → String
  | fileNotFound path => "File not found: " ++ path
  | denied path => "Permission denied: " ++ path
  | fileTooLarge size =>
    "File too large: " ++ toString size ++ " bytes (max: " ++ toString Limits.fileSize ++ ")"
  | emptyFile path => "Input is empty: " ++ path
  | invalidEncoding path message => "Invalid encoding in " ++ path ++ ": " ++ message
  | transfer path message => "I/O error reading " ++ path ++ ": " ++ message
  | includeTooDeep path =>
    "READ inclusion nested deeper than " ++ toString Limits.includeDepth ++ " files at " ++ path
  | verticalFormat path line =>
    "Unsupported feature at " ++ path ++ ":" ++ toString line ++
      ": Vertical input format is not allowed"
  | unknownVersion version => "Unsupported format version: " ++ version

def code : ReadError → Code
  | fileNotFound _ => .fileNotFound
  | denied _ => .permissionDenied
  | fileTooLarge _ => .fileTooLarge
  | emptyFile _ => .emptyFile
  | invalidEncoding .. => .invalidEncoding
  | transfer .. => .transferFailed
  | includeTooDeep _ => .includeTooDeep
  | verticalFormat .. => .unsupportedFeature
  | unknownVersion _ => .unsupportedVersion

end ReadError

namespace Version

/-- The version that a text names. -/
def parse (text : String) : Except ReadError Version :=
  match read? text with
  | some v => .ok v
  | none => .error (.unknownVersion text)

def width (v : Version) : Except ReadError Nat :=
  match v.width? with
  | some n => .ok n
  | none => .error (.unknownVersion v.text)

end Version

end TransportDeck
