import TransportDeck.Diagnostics.Event

/-!
# File contexts

Which file work is done for, and how an event is marked with it. A context holds for a stretch of
work and then gives way to the one before.
-/

namespace TransportDeck

/-- A file and the number it has, the depth of inclusion. -/
structure FileContext where
  path : String
  number : Nat
deriving Repr, DecidableEq

/-- Work that knows the current file context. -/
abbrev Scoped := StateM (Option FileContext)

namespace FileContext

/-- Does `body` in a context and restores the one before. -/
def within {α : Type} (inner : FileContext) (body : Scoped α) : Scoped α := do
  let outer ← get
  set (some inner)
  let r ← body
  set outer
  return r

end FileContext

/-- An event as it is logged, and the file that it is collected under. -/
structure Entry where
  event : Event
  file : Option String
deriving Repr, DecidableEq

namespace Entry

/-- Debug events are logged as they are. The others name the current file, and errors and
warnings are collected under it. -/
def mark (context : Option FileContext) (e : Event) : Entry :=
  match context, e.level with
  | none, _ => ⟨e, none⟩
  | some _, .debug => ⟨e, none⟩
  | some c, level =>
    ⟨(e.withValue "file" c.path).withValue "file_id" (toString c.number),
      if level = .info then none else some c.path⟩

/-- The events as logged in the current context. -/
def logged (events : List Event) : Scoped (List Entry) := do
  let context ← get
  return events.map (mark context)

end Entry

end TransportDeck
