import TransportDeck.Files.Bytes
import TransportDeck.Files.Path

/-!
# Files by path

What a path leads to. The library asks a `Source` for the files that it reads, so the answers can
come from a disk or from a `Store`, a fixed set of files in one directory.
-/

namespace TransportDeck.Files

/-- Why a path leads to nothing that can be read or written. -/
inductive Fault where
  | notFound
  | denied
  | other (message : String)
deriving Repr, DecidableEq

namespace Fault

def isDirectory : Fault := .other "Is a directory (os error 21)"

def notDirectory : Fault := .other "Not a directory (os error 20)"

def nameTooLong : Fault := .other "File name too long (os error 36)"

def nulByte : Fault := .other "file name contained an unexpected NUL byte"

def message : Fault → String
  | notFound => "No such file or directory (os error 2)"
  | denied => "Permission denied (os error 13)"
  | other message => message

end Fault

/-- What stands at a path. The size of a file is known before its bytes are read. -/
inductive Entry where
  | directory
  | file (size : Nat) (bytes : List Nat)
deriving Repr, DecidableEq

def Entry.ofBytes (bytes : List Nat) : Entry := .file bytes.length bytes

def Entry.ofText (text : String) : Entry := ofBytes (text.toUTF8.toList.map UInt8.toNat)

/-- What each path leads to. -/
abbrev Source := String → Except Fault Entry

def Source.isFile (s : Source) (path : String) : Bool :=
  match s path with
  | .ok (.file ..) => true
  | _ => false

/-- The text of a file, with marks in place of bytes that spell no character. -/
def Source.text? (s : Source) (path : String) : Option String :=
  match s path with
  | .ok (.file _ bytes) => some (String.ofList (decodeLossy bytes))
  | _ => none

/-- Files and directories by the names on the way to them. -/
structure Store where
  entries : List (List String × Entry)

namespace Store

def at? (s : Store) (names : List String) : Option Entry :=
  if names.isEmpty then some .directory
  else match s.entries.find? (·.1 == names) with
    | some (_, e) => some e
    | none =>
      if s.entries.any fun e => names.isPrefixOf e.1 then some .directory else none

/-- Where a path leads that has left the files. Nothing is known out there but that the way up leads
to directories. -/
def outside (cs : List Component) : Except Fault (List String) :=
  if cs.all Component.isStep then .ok [] else .error .notFound

/-- One name after another is looked up below the place reached so far. -/
def resolve (s : Store) : (done : List String) → List Component → Except Fault (List String)
  | done, [] => .ok done
  | done, c :: cs =>
    match s.at? done with
    | none => .error .notFound
    | some (.file ..) => .error .notDirectory
    | some .directory =>
      match c with
      | .root => outside cs
      | .here => s.resolve done cs
      | .up => if done.isEmpty then outside cs else s.resolve done.dropLast cs
      | .name n =>
        if n.utf8ByteSize > 255 then .error .nameTooLong else s.resolve (done ++ [n]) cs

def checkPath (path : String) : Except Fault Unit :=
  if path.isEmpty then .error .notFound
  else if path.toList.contains '\x00' then .error .nulByte
  else if path.utf8ByteSize ≥ 4096 then .error .nameTooLong
  else .ok ()

/-- Whether a path asks for a directory by a slash at its end. -/
def asksDirectory (path : String) : Bool :=
  match path.toList.reverse with
  | '/' :: _ => true
  | '.' :: '/' :: _ => true
  | _ => false

def find (s : Store) : Source := fun path => do
  checkPath path
  let names ← s.resolve [] (components path)
  match s.at? names with
  | none => .error .notFound
  | some (.file n bs) => if asksDirectory path then .error .notDirectory else .ok (.file n bs)
  | some .directory => .ok .directory

/-- Why a file cannot be written at a path. -/
def writeFault? (s : Store) (path : String) : Option Fault :=
  match checkPath path with
  | .error f => some f
  | .ok () =>
    match s.resolve [] (components path) with
    | .error f => some f
    | .ok names =>
      match s.at? names with
      | some .directory => some .isDirectory
      | some (.file ..) => if asksDirectory path then some .notDirectory else none
      | none =>
        if asksDirectory path then some .isDirectory
        else match s.at? names.dropLast with
          | some .directory => none
          | some (.file ..) => some .notDirectory
          | none => some .notFound

end Store

end TransportDeck.Files
