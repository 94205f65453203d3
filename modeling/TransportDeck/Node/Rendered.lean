import TransportDeck.Diagnostics.Warning
import TransportDeck.Number.Tolerance

/-!
# Rendered text

What writing a part of a record gives: its text, and the warnings raised on the way.
-/

namespace TransportDeck

structure Rendered where
  text : String
  warnings : List Warning
deriving Repr, DecidableEq

namespace Rendered

def empty : Rendered := ⟨"", []⟩

def ofText (text : String) : Rendered := ⟨text, []⟩

def append (a b : Rendered) : Rendered := ⟨a.text ++ b.text, a.warnings ++ b.warnings⟩

instance : Append Rendered := ⟨append⟩

@[simp] theorem text_append (a b : Rendered) : (a ++ b).text = a.text ++ b.text := rfl

@[simp] theorem warnings_append (a b : Rendered) :
    (a ++ b).warnings = a.warnings ++ b.warnings := rfl

@[simp] theorem text_ofText (t : String) : (ofText t).text = t := rfl

@[simp] theorem warnings_ofText (t : String) : (ofText t).warnings = [] := rfl

/-- The parts in order, one behind the other. -/
def concat (parts : List Rendered) : Rendered := parts.foldr append empty

theorem text_concat (parts : List Rendered) :
    (concat parts).text = String.join (parts.map Rendered.text) := by
  induction parts with
  | nil => rfl
  | cons p parts ih =>
    rw [List.map_cons, String.join_cons, ← ih]
    rfl

end Rendered

end TransportDeck
