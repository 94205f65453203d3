import TransportDeck.Deck.Rejection
import TransportDeck.Proofs.Grammar.Places
import TransportDeck.Proofs.Source.Excerpts
import TransportDeck.Proofs.Token.Boundaries

/-!
# Where rejected cards are wrong

The errors of a card that is rejected point at places of its text, and they are shown there.
-/

namespace TransportDeck

open Text

/-! ## Spans -/

/-- The span covers the characters `within` behind the text `before`. -/
structure Span.Covers (span : Span) (before within : List Char) : Prop where
  start_eq : span.start = Position.start.advance before
  stop_eq : span.stop = Position.start.advance (before ++ within)
  start_offset : span.start.offset = byteSize before
  stop_offset : span.stop.offset = byteSize before + byteSize within

/-- The span covers a part of the text. -/
def Span.LiesIn (span : Span) (source : String) : Prop :=
  ∃ before within behind, source.toList = before ++ (within ++ behind) ∧ span.Covers before within

theorem Span.covers_ofText (before within : List Char) :
    (Span.ofText (Position.start.advance before) within).Covers before within where
  start_eq := rfl
  stop_eq := (Position.advance_append _ _ _).symm
  start_offset := by
    change (Position.start.advance before).offset = _
    rw [Position.offset_advance]
    exact Nat.zero_add _
  stop_offset := by
    change ((Position.start.advance before).advance within).offset = _
    rw [Position.offset_advance, Position.offset_advance]
    exact congrArg (· + _) (Nat.zero_add _)

namespace Lexer

variable {mode : LexMode} {margin : Option Nat} {p : Position}
  {cs left : List Char} {ts : List Token}

/-- Each token covers its own text. -/
theorem Cuts.exists_span_eq (h : Cuts mode margin p cs ts left) : ∀ t ∈ ts, ∃ before behind,
    cs = before ++ (t.text.toList ++ behind) ∧
      t.span = .ofText (p.advance before) t.text.toList := by
  induction ts generalizing margin p cs with
  | nil => simp
  | cons t ts ih =>
    obtain ⟨kind, c, ds, cs', rfl, rfl, -, hts⟩ := h.exists_of_cons
    refine List.forall_mem_cons.mpr ⟨⟨[], cs', by simp, by simp⟩, fun u hu ↦ ?_⟩
    obtain ⟨before, behind, rfl, hspan⟩ := ih hts u hu
    exact ⟨c :: ds ++ before, behind, by simp, by rw [hspan, Position.advance_append]⟩

/-- Behind the last token the text ends. -/
theorem Cuts.endSpan_eq (h : Cuts mode margin .start cs ts []) :
    (TokenStream.of ts).endSpan = .ofText (Position.start.advance cs) [] := by
  have htext := h.eq_append
  rw [List.append_nil] at htext
  rcases List.eq_nil_or_concat ts with rfl | ⟨us, t, rfl⟩
  · cases h
    rfl
  · rw [List.concat_eq_append] at h htext ⊢
    have hstop := h.partitions.stops us t [] rfl
    rw [← htext] at hstop
    rw [TokenStream.endSpan, TokenStream.of]
    simp [hstop, Span.ofText, Span.point]

/-- What points into the tokens of a text lies in the text. -/
theorem liesIn_of_pointsInto {source : String} (hts : tokenize mode source = .ok ts)
    {e : SyntaxError} (he : e.PointsInto ts) : ∀ span ∈ e.span?, span.LiesIn source :=
  fun span hspan ↦ by
  have hcuts : Cuts mode (some 0) .start source.toList ts [] := (tokenize_eq_ok_iff.mp hts).1
  rcases he span hspan with ⟨t, ht, rfl⟩ | rfl
  · obtain ⟨before, behind, htext, heq⟩ := hcuts.exists_span_eq t ht
    exact ⟨before, t.text.toList, behind, htext, heq ▸ Span.covers_ofText _ _⟩
  · exact ⟨source.toList, [], [], by simp, hcuts.endSpan_eq ▸ Span.covers_ofText _ _⟩

/-- A place where lexing fails lies in the text. -/
theorem liesIn_of_tokenize_eq_error {source : String} {e : LexError}
    (h : tokenize mode source = .error e) : ∀ span ∈ e.span?, span.LiesIn source :=
  fun span hspan ↦ by
  have hpartitions := tokenize_partitions mode source
  rw [h] at hpartitions
  obtain ⟨before, left, ts, htext, -, -, hfails⟩ := hpartitions
  cases hfails with
  | @invalidCharacter c cs left_eq =>
    cases hspan
    exact ⟨before, [c], cs, by rw [htext, left_eq]; rfl, Span.covers_ofText _ _⟩
  | @tokenTooLong lexeme rest left_eq =>
    cases hspan
    exact ⟨before, lexeme, rest, by rw [htext, left_eq], Span.covers_ofText _ _⟩
  | tooManyTokens => cases hspan

end Lexer

/-- There is an error in a text that cannot be read, and all errors lie in it. -/
theorem Grammar.liesIn_of_parse {g : Grammar} {source : String} {errors : List SyntaxError}
    (h : g.parse source = .error errors) :
    errors ≠ [] ∧ ∀ e ∈ errors, ∀ span ∈ e.span?, span.LiesIn source := by
  unfold Grammar.parse at h
  split at h
  · next e he =>
    obtain rfl := Except.error.inj h
    refine ⟨List.cons_ne_nil _ _, fun e' he' ↦ ?_⟩
    rw [List.mem_singleton.mp he']
    exact Lexer.liesIn_of_tokenize_eq_error he
  · next ts hts =>
    obtain ⟨hne, hpoints⟩ := Cursor.pointsInto_of_parse h
    exact ⟨hne, fun e he ↦ Lexer.liesIn_of_pointsInto hts (hpoints e he)⟩

/-! ## Rejections -/

namespace Rejection

/-- The errors of a rejected card are where they say they are. -/
structure IsLocated (r : Rejection) : Prop where
  errors_ne_nil : r.errors ≠ []
  /-- The sum of no line and the first one is past the last word, and no difference is below
  zero. -/
  words : ∀ e ∈ r.errors, ∀ span ∈ e.span?, span.start.line + r.firstLine < UInt32.size ∧
    1 ≤ span.start.line ∧ 1 ≤ span.start.column
  /-- Each error lies in the text, and in the picture of it the carets stand under its start. -/
  located : ∀ e ∈ r.errors, ∀ span ∈ e.span?, ∃ before within behind,
    r.text.toList = before ++ (within ++ behind) ∧ span.Covers before within ∧
      (Excerpt.of r.text r.firstLine).Shows span e.message before
        (showError (.of r.text r.firstLine) e)
  /-- The line of the card is that of its first error. -/
  line_eq : ∀ e ∈ r.first?, ∀ span ∈ e.span?, ∀ before behind, r.text.toList = before ++ behind →
    byteSize before = span.start.offset → r.line = r.firstLine + before.count '\n'
  line_eq_firstLine : (∀ e ∈ r.first?, e.span? = none) → r.line = r.firstLine
  render_eq : r.render = r.block.name ++ " record at " ++ r.path ++ ":" ++ toString r.firstLine ++
    "\n" ++ String.join (r.errors.map (showError (.of r.text r.firstLine)))

/-- A rejection is located if its errors lie in the text and the lines of this have numbers that are
words. -/
theorem isLocated {r : Rejection} (hfirst : 1 ≤ r.firstLine)
    (hwords : r.text.toList.count '\n' + 1 + r.firstLine < UInt32.size) (hne : r.errors ≠ [])
    (h : ∀ e ∈ r.errors, ∀ span ∈ e.span?, span.LiesIn r.text) : r.IsLocated where
  errors_ne_nil := hne
  words e he span hspan := by
    obtain ⟨before, within, behind, htext, hcovers⟩ := h e he span hspan
    have hcount : before.count '\n' ≤ r.text.toList.count '\n' := by
      rw [htext, List.count_append]
      exact Nat.le_add_right _ _
    rw [hcovers.start_eq, Position.line_advance]
    exact ⟨by
      change 1 + _ + _ < _; omega, Nat.le_add_right _ _, Position.one_le_column_advance before⟩
  located e he span hspan := by
    obtain ⟨before, within, behind, htext, hcovers⟩ := h e he span hspan
    refine ⟨before, within, behind, htext, hcovers, ?_⟩
    have hshow : showError (.of r.text r.firstLine) e =
        (Excerpt.of r.text r.firstLine).render span e.message := by
      rw [showError, hspan]
    have hfirstLine : (Excerpt.of r.text r.firstLine).firstLine = r.firstLine :=
      Nat.max_eq_left hfirst
    rw [hshow]
    exact Excerpt.shows_render htext hcovers.start_eq (by rwa [hfirstLine])
  line_eq e he span hspan before' behind' htext' hsize := by
    obtain ⟨before, within, behind, htext, hcovers⟩ := h e (List.mem_of_mem_head? he) span hspan
    obtain rfl : before' = before :=
      eq_of_byteSize_eq (htext'.symm.trans htext) (hsize.trans hcovers.start_offset)
    have hposition : r.position? = some span.start := by
      rw [position?, he, Option.bind_some, hspan]
      rfl
    have hline : span.start.line = 1 + before'.count '\n' := by
      rw [hcovers.start_eq, Position.line_advance]
      rfl
    have hcount : before'.count '\n' ≤ r.text.toList.count '\n' := by
      rw [htext, List.count_append]
      exact Nat.le_add_right _ _
    rw [line, hposition]
    dsimp only
    rw [Nat.max_eq_left hfirst, lineInFile_eq (by omega) (by omega)]
    omega
  line_eq_firstLine hnone := by
    have hposition : r.position? = none := by
      rw [position?]
      cases hfirst? : r.first? with
      | none => rfl
      | some e => rw [Option.bind_some, hnone e hfirst?]; rfl
    rw [line, hposition]
  render_eq := rfl

end Rejection

namespace Card

variable {card : Card} {errors : List SyntaxError}

/-- The errors of a card that is rejected lie in its text, and are shown in it, if the first line
and the number of lines have a sum that is a word. -/
theorem isLocated_of_parse (hfirst : 1 ≤ card.firstLine)
    (hwords : card.text.toList.count '\n' + 1 + card.firstLine < UInt32.size)
    (h : card.parse = .error errors) : (Rejection.of card errors).IsLocated := by
  unfold Card.parse at h
  dsimp only at h
  split at h
  · cases h
  · next errors' hparse =>
    split_ifs at h
    obtain rfl := Except.error.inj h
    obtain ⟨hne, hlies⟩ := Grammar.liesIn_of_parse hparse
    exact Rejection.isLocated hfirst hwords hne hlies

/-- The second colon of a geometry stands on the second line of the card. -/
theorem isLocated_of_colon :
    ∃ (card : Card) (errors : List SyntaxError), card.lines = ["1 0 -1", "     : : 2"] ∧
      1 ≤ card.firstLine ∧ card.text.toList.count '\n' + 1 + card.firstLine < UInt32.size ∧
      card.parse = .error errors ∧ (Rejection.of card errors).IsLocated := by
  have herror : (Card.parse ⟨.cell, ["1 0 -1", "     : : 2"], "deck", 3, 0⟩).toOption.isNone =
      true := by
    decide +kernel
  cases hparse : Card.parse ⟨.cell, ["1 0 -1", "     : : 2"], "deck", 3, 0⟩ with
  | ok r =>
    rw [hparse] at herror
    cases herror
  | error errors =>
    have hwords :
      (Card.text ⟨.cell, ["1 0 -1", "     : : 2"], "deck", 3, 0⟩).toList.count '\n' + 1 + 3 <
        UInt32.size := by
      decide
    exact ⟨_, errors, rfl, by decide, hwords, hparse, isLocated_of_parse (by decide) hwords hparse⟩

end Card

end TransportDeck
