import TransportDeck.Input.Line
import TransportDeck.Node.Rendered

/-!
# Wrapping

Lines that are too wide for a version are cut at blanks, and what is cut off continues behind an
indent. A comment may be wider; a token that fits nowhere stays and is reported.
-/

namespace TransportDeck.Wrap

open Text

def fits (width : Nat) (cs : List Char) : Bool := cs.length ≤ width

/-- What stands before an inline comment, without blanks at its end. -/
def codePart (cs : List Char) : List Char := trimEnd (cs.takeWhile (· != '$'))

/-- The place of the last blank, among the first `n` characters, that stands behind a token and
before any comment. -/
def breakFrom? (seen : Bool) : (n : Nat) → List Char → Option Nat
  | 0, _ => none
  | _ + 1, [] => none
  | n + 1, c :: cs =>
    if c == '$' then none
    else match breakFrom? (seen || !isBlank c) n cs with
      | some i => some (i + 1)
      | none => if seen && isBlank c then some 0 else none

/-- Where a line can be cut so that the first part fits. -/
def break? (width : Nat) (cs : List Char) : Option Nat := breakFrom? false (width + 1) cs

def visible (cs : List Char) : Nat := cs.countP (!isBlank ·)

theorem visible_drop_le (n : Nat) (cs : List Char) : visible (cs.drop n) ≤ visible cs :=
  (List.drop_sublist n cs).countP_le

theorem visible_drop_lt_of_break {n i : Nat} {cs : List Char}
    (h : breakFrom? false n cs = some i) : visible (cs.drop i) < visible cs := by
  induction cs generalizing n i with
  | nil => cases n <;> simp [breakFrom?] at h
  | cons c cs ih =>
    cases n with
    | zero => simp [breakFrom?] at h
    | succ n =>
      rw [breakFrom?] at h
      split at h
      · simp at h
      · split at h
        · rename_i j hj
          obtain rfl : j + 1 = i := by simpa using h
          cases hc : isBlank c with
          | true =>
            have := ih (by simpa [hc] using hj)
            simpa [visible, hc] using this
          | false =>
            have := visible_drop_le j cs
            simp only [visible, List.drop_succ_cons, List.countP_cons, hc] at this ⊢
            simp only [Bool.not_false, if_true]
            omega
        · simp at h

theorem visible_trimStart (cs : List Char) : visible (trimStart cs) = visible cs := by
  induction cs with
  | nil => rfl
  | cons c cs ih =>
    cases hc : isBlank c with
    | true => simpa [visible, trimStart, hc] using ih
    | false => simp [visible, trimStart, hc]

theorem visible_append (a b : List Char) : visible (a ++ b) = visible a + visible b := by
  simp [visible]

/-- The blanks in front of what continues a line. -/
def indent : List Char := List.replicate Limits.writtenIndent ' '

theorem visible_indent : visible indent = 0 := by decide

def narrowWarning (width : Nat) (cs : List Char) : Warning :=
  .of .lineExpansion
    ("A token does not fit within " ++ toString width ++ " columns: " ++ String.ofList (trim cs))

/-- The lines that a line becomes. Each cut leaves fewer visible characters. -/
def cutLine (width : Nat) (cs : List Char) : List (List Char) × List Warning :=
  if fits width (codePart cs) then ([cs], [])
  else
    match _h : break? width cs with
    | none => ([cs], [narrowWarning width cs])
    | some i =>
      let rest := cutLine width (indent ++ trimStart (cs.drop i))
      (trimEnd (cs.take i) :: rest.1, rest.2)
termination_by visible cs
decreasing_by
  rw [visible_append, visible_indent, visible_trimStart, Nat.zero_add]
  exact visible_drop_lt_of_break ‹_›

def wrapLine (width : Nat) (line : List Char) : List (List Char) × List Warning :=
  if fits width line || Line.isComment (String.ofList line) then ([line], [])
  else cutLine width line

end TransportDeck.Wrap

namespace TransportDeck

open Text

/-- A record with no line too wide, as far as its tokens allow. -/
def wrap (width : Nat) (record : String) : Rendered :=
  let parts := (splitWhere (· == '\n') record.toList).map (Wrap.wrapLine width)
  ⟨"\n".intercalate ((parts.flatMap (·.1)).map String.ofList), parts.flatMap (·.2)⟩

end TransportDeck
