import TransportDeck.Diagnostics.Event

/-!
# Buffered events

The latest events that pass a threshold, oldest first.
-/

namespace TransportDeck

structure EventBuffer where
  threshold : Level
  events : Array Event

namespace EventBuffer

def empty (threshold : Level) : EventBuffer := ⟨threshold, #[]⟩

/-- A full buffer forgets its oldest events to make room for one. -/
def log (b : EventBuffer) (e : Event) : EventBuffer :=
  if b.threshold.passes e.level then
    let kept :=
      if b.events.size ≥ Limits.bufferedEvents then
        b.events.extract (b.events.size - Limits.bufferedEvents + 1) b.events.size
      else b.events
    { b with events := kept.push e }
  else b

def errors (b : EventBuffer) : Array Event := b.events.filter (·.level = .error)

def warnings (b : EventBuffer) : Array Event := b.events.filter (·.level = .warning)

def clear (b : EventBuffer) : EventBuffer := { b with events := #[] }

end EventBuffer

end TransportDeck
