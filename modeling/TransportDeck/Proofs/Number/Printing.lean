import Mathlib.Tactic
import TransportDeck.Node.NumberStyle
import TransportDeck.Proofs.Token.Lexing

/-!
# How numbers are spelled

Numbers are spelled with digits, points, signs and the letters of an exponent; the letter of a jump
is not among them.
-/

namespace TransportDeck

/-- No character is the letter of a jump. -/
def JumpFree (cs : List Char) : Prop := ∀ c ∈ cs, Lexer.isJumpLetter c = false

instance (cs : List Char) : Decidable (JumpFree cs) := List.decidableBAll _ cs

namespace JumpFree

variable {cs ds : List Char}

/-- No letter of a jump stands in either text, so none stands in both. -/
theorem append (h : JumpFree cs) (h' : JumpFree ds) : JumpFree (cs ++ ds) :=
  List.forall_mem_append.mpr ⟨h, h'⟩

theorem cons {c : Char} (hc : Lexer.isJumpLetter c = false) (h : JumpFree cs) :
    JumpFree (c :: cs) :=
  List.forall_mem_cons.mpr ⟨hc, h⟩

theorem subset (h : JumpFree cs) (hsub : ds ⊆ cs) : JumpFree ds := fun c hc ↦ h c (hsub hc)

theorem replicate (n : Nat) {c : Char} (hc : Lexer.isJumpLetter c = false) :
    JumpFree (List.replicate n c) := by
  intro d hd
  rw [List.eq_of_mem_replicate hd]
  exact hc

end JumpFree

/-- Digits are no letters. -/
theorem jumpFree_digits (n : Nat) : JumpFree (Decimal.digits n) := by
  intro c hc
  have hdigit := Nat.isDigit_of_mem_toDigits (by decide : 0 < 10) (by decide) hc
  rw [Bool.eq_false_iff]
  intro hj
  simp only [Lexer.isJumpLetter, Bool.or_eq_true, beq_iff_eq] at hj
  rcases hj with rfl | rfl <;> cases hdigit

namespace Decimal

theorem jumpFree_digitsTo (width n : Nat) : JumpFree (digitsTo width n) :=
  (JumpFree.replicate _ rfl).append (jumpFree_digits n)

/-- A point is no letter of a jump, either. -/
theorem jumpFree_withPoint (places n : Nat) : JumpFree (withPoint places n) := by
  unfold withPoint
  split_ifs
  · exact jumpFree_digits n
  · have h := jumpFree_digitsTo (places + 1) n
    exact (h.subset (List.take_subset _ _)).append (.cons rfl (h.subset (List.drop_subset _ _)))

/-- The mantissa of a number in scientific form has digits and a point only. -/
theorem Ratio.jumpFree_scientific (r : Ratio) (places : Nat) :
    JumpFree (r.scientific places).mantissa := by
  unfold scientific
  dsimp only
  split_ifs <;> exact jumpFree_withPoint _ _

end Decimal

namespace Number

/-- A sign is no letter of a jump. -/
theorem jumpFree_mark (s : SignStyle) (negative : Bool) : JumpFree (s.mark negative).toList := by
  cases s <;> cases negative <;> decide

/-- Zeros between a sign and its digits are no letters. -/
theorem jumpFree_zeroFill {sign digits : String} (hs : JumpFree sign.toList)
    (hd : JumpFree digits.toList) (width : Nat) : JumpFree (zeroFill sign digits width).toList := by
  simp only [zeroFill, String.toList_append, String.toList_ofList]
  exact (hs.append (.replicate _ rfl)).append hd

/-- Neither infinities nor undefined numbers are written with the letter of a jump. -/
theorem jumpFree_special? {x : Float} {text : String} (h : special? x = some text) :
    JumpFree text.toList := by
  unfold special? at h
  split_ifs at h <;> obtain rfl := Option.some.inj h <;> decide

/-- An integer is printed without the letter of a jump. -/
theorem jumpFree_renderInt (n : Int) (width : Nat) (sign : SignStyle) :
    JumpFree (renderInt n width sign).toList := by
  refine jumpFree_zeroFill (jumpFree_mark _ _) ?_ _
  rw [Nat.toString_eq_ofList_toDigits, String.toList_ofList]
  exact jumpFree_digits n.natAbs

/-- The power of ten is printed without the letter of a jump. -/
theorem jumpFree_exponentText (e : Int) : JumpFree (exponentText e).toList := by
  unfold exponentText
  rw [String.toList_append, String.toList_ofList]
  refine .append ?_ (Decimal.jumpFree_digitsTo _ _)
  split_ifs <;> decide

theorem jumpFree_withExponent {mantissa : List Char} (h : JumpFree mantissa) (e : Int) :
    JumpFree (String.ofList mantissa ++ "e" ++ exponentText e).toList := by
  simp only [String.toList_append, String.toList_ofList]
  exact (h.append (by decide)).append (jumpFree_exponentText e)

/-- A number in scientific form is printed without the letter of a jump. -/
theorem jumpFree_renderScientific (x : Float) (places width : Nat) (sign : SignStyle) :
    JumpFree (renderScientific x places width sign).toList := by
  unfold renderScientific
  split
  · next h => exact jumpFree_special? h
  · exact jumpFree_zeroFill (jumpFree_mark _ _)
      (jumpFree_withExponent ((magnitude x).jumpFree_scientific places) _) _

/-- A number with fixed places is printed without the letter of a jump. -/
theorem jumpFree_renderFixed (x : Float) (places width : Nat) (sign : SignStyle) :
    JumpFree (renderFixed x places width sign).toList := by
  unfold renderFixed
  split
  · next h => exact jumpFree_special? h
  · refine jumpFree_zeroFill (jumpFree_mark _ _) ?_ _
    rw [String.toList_ofList]
    exact Decimal.jumpFree_withPoint _ _

/-- Stripping zeros adds nothing. -/
theorem stripZeros_subset (cs : List Char) : stripZeros cs ⊆ cs := by
  unfold stripZeros
  split_ifs
  · intro c hc
    have hc := (List.dropWhile_subset _) ((List.dropWhile_subset _) (List.mem_reverse.mp hc))
    exact List.mem_reverse.mp hc
  · exact List.Subset.refl cs

/-- A number in general form has digits, a point and an exponent only. -/
theorem jumpFree_generalDigits (r : Decimal.Ratio) (precision : Nat) :
    JumpFree (generalDigits r precision).toList := by
  unfold generalDigits
  dsimp only
  split_ifs
  · decide
  · rw [String.toList_ofList]
    exact (Decimal.jumpFree_withPoint _ _).subset (stripZeros_subset _)
  · exact jumpFree_withExponent ((r.jumpFree_scientific _).subset (stripZeros_subset _)) _

/-- A number in general form is printed without the letter of a jump. -/
theorem jumpFree_renderGeneral (x : Float) (precision width : Nat) (sign : SignStyle) :
    JumpFree (renderGeneral x precision width sign).toList := by
  unfold renderGeneral
  split
  · next h => exact jumpFree_special? h
  · exact jumpFree_zeroFill (jumpFree_mark _ _) (jumpFree_generalDigits _ _) _

end Number

/-! ## In the style of a token -/

namespace NumberStyle

variable {style : NumberStyle}

/-- The letter of the exponent that a style asks for is the only letter that is put in. -/
theorem jumpFree_markExponent (h : JumpFree style.exponentMark) {text : String}
    (htext : JumpFree text.toList) : JumpFree (style.markExponent text).toList := by
  unfold markExponent
  rw [String.toList_ofList]
  intro c hc
  obtain ⟨d, hd, hcd⟩ := List.mem_flatMap.mp hc
  split_ifs at hcd
  · exact h c hcd
  · rw [List.mem_singleton.mp hcd]
    exact htext d hd

/-- What stands in front of the last sign is part of the text. -/
theorem cutLastSign?_subset {cs head digits : List Char}
    (h : cutLastSign? cs = some (head, digits)) : head ⊆ cs := by
  unfold cutLastSign? at h
  split at h
  · cases h
  · obtain ⟨rfl, -⟩ := Prod.mk.inj (Option.some.inj h)
    intro c hc
    exact List.mem_reverse.mp (List.dropWhile_subset _ (List.mem_reverse.mp hc))

theorem jumpFree_padRight {s : String} (h : JumpFree s.toList) (width : Nat) :
    JumpFree (Text.padRight width s).toList := by
  unfold Text.padRight
  rw [String.toList_ofList]
  exact h.append (.replicate _ rfl)

/-- Restyling an exponent puts in the letter that the style asks for, and no other. -/
theorem jumpFree_restyleExponent {text : String} (htext : JumpFree text.toList) :
    JumpFree (style.restyleExponent text).toList := by
  unfold restyleExponent
  split
  · exact htext
  · next head digits hcut =>
    dsimp only
    rw [String.toList_append, String.toList_ofList]
    refine (htext.subset (cutLastSign?_subset hcut)).append (jumpFree_padRight ?_ _)
    rw [String.toList_ofList]
    exact Decimal.jumpFree_digitsTo _ _

/-- Whatever the value is, no real number is spelled with the letter of a jump. -/
theorem jumpFree_renderReal (h : JumpFree style.exponentMark) (t : Tolerance) (x : Float) :
    JumpFree (style.renderReal t x).toList := by
  unfold renderReal
  extract_lets nearest
  clear_value nearest
  split_ifs
  · exact Number.jumpFree_renderInt _ _ _
  · exact Number.jumpFree_renderGeneral _ _ _ _
  · exact jumpFree_restyleExponent
      (jumpFree_markExponent h (Number.jumpFree_renderScientific _ _ _ _))
  · exact Number.jumpFree_renderGeneral _ _ _ _
  · exact Number.jumpFree_renderFixed _ _ _ _

/-- The letter of an exponent is no letter of a jump. -/
theorem jumpFree_exponentParts? {cs mark rest : List Char}
    (h : exponentParts? cs = some (mark, rest)) : JumpFree mark := by
  have letter {c : Char} (hc : (c == 'e' || c == 'E') = true) : JumpFree [c] := by
    simp only [Bool.or_eq_true, beq_iff_eq] at hc
    rcases hc with rfl | rfl <;> decide
  cases cs with
  | nil => cases h
  | cons c cs =>
    unfold exponentParts? at h
    dsimp only at h
    split_ifs at h with hc hs
    · cases cs <;> obtain ⟨rfl, -⟩ := Prod.mk.inj (Option.some.inj h) <;> exact letter hc
    · obtain ⟨rfl, -⟩ := Prod.mk.inj (Option.some.inj h)
      decide

/-- The letter that a token has in front of its exponent is no letter of a jump. -/
theorem jumpFree_scientificParts? {token : List Char} {parts : Parts}
    (h : scientificParts? token = some parts) : JumpFree parts.mark := by
  unfold scientificParts? at h
  dsimp only at h
  split_ifs at h
  split at h
  · cases h
  · next mark rest hmark =>
    split_ifs at h
    obtain rfl := Option.some.inj h
    exact jumpFree_exponentParts? hmark

/-- Asking for other places does not change the letter of the exponent. -/
theorem exponentMark_withPlaces (style : NumberStyle) (mantissa : List Char) :
    (style.withPlaces mantissa).exponentMark = style.exponentMark := by
  unfold withPlaces
  split <;> rfl

/-- A style that is taken from a token has the letter of that token. -/
theorem jumpFree_ofRealToken (h : JumpFree style.exponentMark) (token : List Char) :
    JumpFree (style.ofRealToken token).exponentMark := by
  unfold ofRealToken
  split
  · next parts hparts =>
    dsimp only
    rw [exponentMark_withPlaces]
    split <;> exact jumpFree_scientificParts? hparts
  · rw [exponentMark_withPlaces]
    exact h

end NumberStyle

/-- The style of a field asks for no letter of a jump. -/
theorem Field.jumpFree_style (f : Field) : JumpFree f.style.exponentMark := by
  have plain : JumpFree NumberStyle.plain.exponentMark := by decide
  unfold style
  split
  · exact plain
  · dsimp only
    split_ifs
    · exact plain
    · refine NumberStyle.jumpFree_ofRealToken ?_ _
      exact plain
    · exact plain

end TransportDeck
