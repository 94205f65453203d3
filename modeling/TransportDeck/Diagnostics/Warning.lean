import TransportDeck.Diagnostics.Event

/-!
# Warnings

What is reported beside a result without stopping the work. Every warning is also an event.
-/

namespace TransportDeck

structure Warning where
  code : Code
  message : String
  path : Option String
  line : Option Nat
deriving Repr, DecidableEq

namespace Warning

def of (code : Code) (message : String) : Warning := ⟨code, message, none, none⟩

def inFile (w : Warning) (path : String) (line : Nat) : Warning :=
  { w with path := some path, line := some line }

def onLine (w : Warning) (line : Nat) : Warning := { w with line := some line }

def event (w : Warning) : Event := Event.warning w.code w.message

def text (w : Warning) : String :=
  let place := match w.path, w.line with
    | some path, some line => " --> " ++ path ++ ":" ++ toString line
    | none, some line => " --> line " ++ toString line
    | _, none => ""
  "warning[" ++ w.code.text ++ "]: " ++ w.message ++ place

end Warning

end TransportDeck
