import TransportDeck.Proofs.Deck.LineStarts
import TransportDeck.Proofs.Input.Targets
import TransportDeck.Proofs.Token.Gaps
import TransportDeck.Proofs.Token.ShorterTexts

/-!
# Cards with the same front

Whether a card asks for a file shows in its first line of code.  The lexer and the reader agree on
which line that is where they agree on what is blank.  So two cards that start alike, and go on
behind a break, both ask for a file or neither does.
-/

namespace TransportDeck

open Text

namespace Lexer

variable {mode : LexMode} {margin : Option Nat} {p : Position} {c : Char} {cs : List Char}
  {t : Token} {ts us : List Token}

/-! ## The line of the first word -/

/-- One more separator in front of lines and the start of another one. -/
theorem exists_unlines_cons (hc : Card.separates c = true)
    (h : ∃ ls last, cs = (unlines ls).toList ++ last ∧ (∀ l ∈ ls, '\n' ∉ l.toList) ∧
      ∀ d ∈ last, Card.separates d = true ∧ d ≠ '\n') :
    ∃ ls last, c :: cs = (unlines ls).toList ++ last ∧ (∀ l ∈ ls, '\n' ∉ l.toList) ∧
      ∀ d ∈ last, Card.separates d = true ∧ d ≠ '\n' := by
  obtain ⟨ls, last, rfl, hls, hlast⟩ := h
  by_cases hfeed : c = '\n'
  · subst hfeed
    exact ⟨"" :: ls, last, by simp, List.forall_mem_cons.mpr ⟨by simp, hls⟩, hlast⟩
  · cases ls with
    | nil => exact ⟨[], c :: last, rfl, by simp, List.forall_mem_cons.mpr ⟨⟨hc, hfeed⟩, hlast⟩⟩
    | cons l ls =>
      obtain ⟨hl, hls⟩ := List.forall_mem_cons.mp hls
      refine ⟨String.ofList (c :: l.toList) :: ls, last, by
        simp, List.forall_mem_cons.mpr ⟨?_, hls⟩, hlast⟩
      simp [Ne.symm hfeed, hl]

/-- Behind its last line feed a gap in front of a word holds only separators, for a comment ends
with its line. -/
theorem Gap.exists_unlines (h : Gap false margin cs) : ∃ ls last, cs = (unlines ls).toList ++ last ∧
    (∀ l ∈ ls, '\n' ∉ l.toList) ∧ ∀ d ∈ last, Card.separates d = true ∧ d ≠ '\n' := by
  induction h with
  | nil => exact ⟨[], [], rfl, by simp, by simp⟩
  | blank blank _ ih =>
    refine exists_unlines_cons ?_ ih
    rw [Card.separates, isBlank_of_isAsciiBlank blank]
    rfl
  | mark _ ih => exact exists_unlines_cons rfl ih
  | @comment margin c body cs starts one_line _ ih =>
    obtain ⟨ls, last, rfl, hls, hlast⟩ := ih
    have hc : c ≠ '\n' := by
      rintro rfl
      exact not_starts_of_isAsciiBlank rfl starts
    refine ⟨String.ofList (c :: body) :: ls, last, by
      simp, List.forall_mem_cons.mpr ⟨?_, hls⟩, hlast⟩
    simp [Ne.symm hc, one_line]
  | opened at_end => cases at_end

/-- Behind whole lines there is no margin. -/
theorem marginAfter_unlines (ls : List String) :
    marginAfter (some 0) (unlines ls).toList = some 0 := by
  induction ls with
  | nil => rfl
  | cons l ls ih =>
    have htext : (unlines (l :: ls)).toList = l.toList ++ '\n' :: (unlines ls).toList := by simp
    rw [htext, marginAfter_line, ih]

/-- The first word stands in a line that the lexer does not take for a comment: only separators are
in front of it. -/
theorem Cuts.exists_first_line (hmode : mode ≠ .read) (h : Cuts mode (some 0) p cs (ts ++ us) [])
    (hsolid : ∃ t ∈ ts, t.isLayout = false) : ∃ above gap c ds,
      (textOf ts).toList = (unlines above).toList ++ (gap ++ c :: ds) ∧
      (∀ l ∈ above, '\n' ∉ l.toList) ∧
        (∀ d ∈ gap, Card.separates d = true ∧ d ≠ '\n') ∧ isAsciiBlank c = false ∧
          startsComment (marginAfter (some 0) gap) c (ds ++ (textOf us).toList) = false := by
  have hsplit : ts.takeWhile Token.isLayout ++ ts.dropWhile Token.isLayout = ts :=
    List.takeWhile_append_dropWhile
  have hlayout : ∀ l ∈ ts.takeWhile Token.isLayout, l.isLayout = true :=
    fun l hl ↦ List.mem_takeWhile_imp hl
  have hhead := List.head?_dropWhile_not Token.isLayout ts
  cases hword : ts.dropWhile Token.isLayout with
  | nil =>
    obtain ⟨t, ht, hother⟩ := hsolid
    rw [List.dropWhile_eq_nil_iff.mp hword t ht] at hother
    cases hother
  | cons t rest =>
    rw [hword] at hsplit hhead
    generalize ts.takeWhile Token.isLayout = ls at hsplit hlayout
    subst hsplit
    have ht : t.isLayout = false := by simpa using hhead
    rw [List.append_assoc, List.cons_append] at h
    obtain ⟨above, gap, htext, habove, hgap⟩ :=
      (h.gap_in_front hmode hlayout (by rintro _ ⟨⟩; exact ht)).exists_unlines
    obtain ⟨mid, -, hrest⟩ := h.exists_of_append
    rw [htext, marginAfter_append, marginAfter_unlines] at hrest
    obtain ⟨kind, c, ds, cs', rfl, rfl, hlex, hus⟩ := hrest.exists_of_cons
    obtain rfl : cs' = (textOf (rest ++ us)).toList := by simpa using hus.eq_append
    have hkind : IsSolid kind := by
      refine ⟨?_, TokenKind.isComment_of_isLayout ht⟩
      rintro rfl
      cases ht
    obtain ⟨hc, hcomment⟩ := Lexer.starts_of_isSolid hlex hkind
    refine ⟨above, gap, c, ds ++ (textOf rest).toList, ?_, habove, hgap, hc, ?_⟩
    · simp [htext]
    · simpa using hcomment

/-- What is apart from a text is apart from the last line of it. -/
theorem Apart.in_line {as ds more : List Char} (h : Apart (as ++ ds) more) :
    Apart (as ++ ds.takeWhile (!· == '\n'))
      ((ds.dropWhile (!· == '\n') ++ more).takeWhile (!· == '\n')) := by
  have hsplit := List.takeWhile_append_dropWhile (p := (!· == '\n')) (l := ds)
  cases hdrop : ds.dropWhile (!· == '\n') with
  | nil =>
    rw [hdrop, List.append_nil] at hsplit
    rw [hsplit, List.nil_append]
    exact h.imp_left (endsLine_takeWhile more).trans
  | cons d rest =>
    have hhead := List.head?_dropWhile_not (!· == '\n') ds
    rw [hdrop] at hhead
    rw [List.cons_append, List.takeWhile_cons_of_neg (by simpa using hhead)]
    exact .inl rfl

end Lexer

/-! ## Cards -/

namespace Card

variable {card card' : Card} {above more more' : List String} {front text text' : List Char}

/-- A card has the line that goes on behind whole lines and a piece of its text. -/
theorem exists_lines_eq (hlines : ∀ l ∈ card.lines, '\n' ∉ l.toList)
    (habove : ∀ l ∈ above, '\n' ∉ l.toList) (hfront : '\n' ∉ front) (hne : front ≠ [])
    (h : card.text.toList = (unlines above).toList ++ (front ++ text)) :
    ∃ more, card.lines = above ++ String.ofList (front ++ text.takeWhile (!· == '\n')) :: more := by
  have hlinesNil : card.lines ≠ [] := by
    intro hnil
    rw [Card.text, hnil] at h
    have hlength := congrArg List.length h
    have hpos := List.length_pos_iff.mpr hne
    simp at hlength
    omega
  have hfree : ∀ c ∈ front, (c == '\n') = false :=
    fun c hc ↦ by simpa using ne_of_mem_of_not_mem hc hfront
  obtain ⟨ls, -, hls⟩ := exists_splitWhere_append hfree text
  have hsplit := splitWhere_intercalate hlinesNil hlines
  rw [show "\n".intercalate card.lines =
    card.text from rfl, h, splitWhere_unlines habove, hls] at hsplit
  have hstrings := congrArg (List.map String.ofList) hsplit
  simp only [List.map_append, List.map_map, List.map_cons] at hstrings
  refine ⟨ls.map String.ofList, ?_⟩
  simpa [Function.comp_def] using hstrings.symm

/-- Whether a card asks for a file does not depend on how its first line of code goes on. -/
theorem isRead_of_line (h : card.lines = above ++ String.ofList (front ++ text) :: more)
    (h' : card'.lines = above ++ String.ofList (front ++ text') :: more')
    (hsolid : allBlank front = false) (hcode : Line.isComment (String.ofList front) = false)
    (hapart : Lexer.Apart front text) (hapart' : Lexer.Apart front text') :
    card'.isRead = card.isRead := by
  have hkept (rest : List Char) (happart : Lexer.Apart front rest) :
      (!Line.isComment (String.ofList (front ++ rest))) = true := by
    rw [Line.isComment_append hsolid happart, hcode]
    rfl
  rw [isRead_eq, isRead_eq, codeLines, codeLines, h, h', List.filter_append, List.filter_append,
    List.filter_cons_of_pos (p := (!Line.isComment ·)) (hkept _ hapart),
    List.filter_cons_of_pos (p := (!Line.isComment ·)) (hkept _ hapart')]
  cases above.filter (!Line.isComment ·) with
  | cons l ls => rfl
  | nil => exact (opensRead_append hsolid hapart').trans (opensRead_append hsolid hapart).symm

variable {mode : LexMode} {ts us : List Token}

/-- Cards that start alike up to a break both ask for a file, or neither does. -/
theorem isRead_of_front {text : String} (hmode : mode ≠ .read)
    (hlines : ∀ l ∈ card.lines, Line.IsLegible l) (hlines' : ∀ l ∈ card'.lines, '\n' ∉ l.toList)
    (hts : tokenize mode card.text = .ok (ts ++ us)) (hsolid : ∃ t ∈ ts, t.isLayout = false)
    (htext : card'.text = textOf ts ++ text)
    (hapart : Lexer.Apart (textOf ts).toList (textOf us).toList)
    (hapart' : Lexer.Apart (textOf ts).toList text.toList) : card'.isRead = card.isRead := by
  have hcuts := (Lexer.tokenize_eq_ok_iff.mp hts).1
  obtain ⟨above, gap, c, ds, hfront, habove, hgap, hc, hcomment⟩ :=
    hcuts.exists_first_line hmode hsolid
  -- The first line of code, as far as both cards have it.
  let line := gap ++ c :: ds.takeWhile (!· == '\n')
  have hne : line ≠ [] := List.append_ne_nil_of_right_ne_nil _ (List.cons_ne_nil _ _)
  have hline : '\n' ∉ line := by
    intro hmem
    rcases List.mem_append.mp hmem with hmem | hmem
    · exact (hgap _ hmem).2 rfl
    rcases List.mem_cons.mp hmem with rfl | hmem
    · cases hc
    · exact absurd (List.mem_takeWhile_imp hmem) (by decide)
  have hsource (more : List Char) : (textOf ts).toList ++ more =
      (unlines above).toList ++ (line ++ (ds.dropWhile (!· == '\n') ++ more)) := by
    simp only [hfront, line, List.append_assoc, List.cons_append]
    rw [← List.append_assoc (ds.takeWhile _), List.takeWhile_append_dropWhile]
  have hgoes {more : List Char} (happart : Lexer.Apart (textOf ts).toList more) :
      Lexer.Apart line ((ds.dropWhile (!· == '\n') ++ more).takeWhile (!· == '\n')) := by
    rw [hfront] at happart
    have hbehind : Lexer.Apart (gap ++ [c] ++ ds) more := by simpa using happart.of_append
    have hcut := hbehind.in_line
    rwa [List.append_assoc, List.singleton_append] at hcut
  have hold : card.text.toList = (textOf ts).toList ++ (textOf us).toList := by
    simpa using hcuts.eq_append
  obtain ⟨more, hmore⟩ :=
    exists_lines_eq (fun l hl ↦ (hlines l hl).unbroken) habove hline hne (hold.trans (hsource _))
  obtain ⟨more', hmore'⟩ := exists_lines_eq hlines' habove hline hne
    ((congrArg String.toList htext).trans (String.toList_append.trans (hsource _)))
  have hlegible := hlines _ (hmore ▸ List.mem_append_right _ List.mem_cons_self)
  have hblank : allBlank line = false := by
    rw [← Bool.not_eq_true, allBlank, List.all_eq_true]
    intro hall
    have hcblank := hlegible.blanks c (by simp [line]) (hall c (by simp [line]))
    rw [hc] at hcblank
    cases hcblank
  have hinLine : ∀ d ∈ ds.takeWhile (!· == '\n'), (!d == '\n') = true :=
    fun d hd ↦ List.mem_takeWhile_imp (p := (!· == '\n')) hd
  have hcode : Line.isComment (String.ofList line) = false := by
    rw [← Line.isComment_append hblank (hgoes hapart), ← hlegible.isCommentLine_eq,
      String.toList_ofList, List.append_assoc, Lexer.isCommentLine_separators hgap,
      List.cons_append,
      Lexer.isCommentLine_cons (by rintro rfl; cases hc), ← hcomment,
      ← List.takeWhile_append_of_pos (p := (!· == '\n')) hinLine, ← List.append_assoc,
      List.takeWhile_append_dropWhile, Lexer.startsComment_takeWhile]
  exact isRead_of_line hmore hmore' hblank hcode (hgoes hapart) (hgoes hapart')

end Card

end TransportDeck
