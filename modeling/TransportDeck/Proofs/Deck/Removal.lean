import TransportDeck.Proofs.Deck.LineStarts
import TransportDeck.Proofs.Deck.Policies
import TransportDeck.Proofs.Deck.Replacement
import TransportDeck.Proofs.Input.Inclusion
import TransportDeck.Proofs.Record.Removal

/-!
# Decks without a parameter

The writer lays a cell without one of its parameters out over the lines that are left.  Where these
close up again, the deck is read as before, but for that parameter.
-/

namespace TransportDeck

open Text Reading Lexer

/-! ## Cards that close up -/

/-- What is left of a card without a part closes up.  The lines `ms` that have the part become one,
`line`: what stands in front of the part on the first of them, `first`, and what stands behind it on
the last, `last`, with nothing but spaces behind the two. -/
structure Card.ClosesUp (options : ReadOptions) (width : Nat) (card : Card) (front behind : String)
    (ls ms bs : List String) (first last line : String) (n : Nat) : Prop where
  lines_eq : card.lines = ls ++ (ms ++ bs)
  front_eq : front = "\n".intercalate (ls ++ [first])
  behind_eq : behind = "\n".intercalate (last :: bs)
  line_eq : first ++ last = Line.spaced line n
  /-- What stands behind is set apart from what stands in front. -/
  apart : ∀ b ∈ front.toList.getLast?, b ∈ breaks
  /-- The spaces are the end of the card, and no comment goes on with them. -/
  spaces : n = 0 ∨ bs = [] ∧ '$' ∉ line.toList
  /-- The line can be written: it is not blank and fits the columns. -/
  written : AreLines options width [first ++ last]
  kept : Line.keep width (first ++ last) = line
  fits : Line.Fits width (first ++ last)
  /-- It shows the reader the same as the lines before, and the card asks for no file. -/
  condenses : Condenses ms line
  ends : EndsAlike width ms line bs
  own : ({ card with lines := ls ++ line :: bs } : Card).isRead = false

namespace Card.ClosesUp

variable {options : ReadOptions} {width n i : Nat} {card : Card} {c : CellRecord} {key : String}
  {p : Parameter} {ps : Parameters} {front behind first last line : String} {ls ms bs : List String}

section

variable (h : card.ClosesUp options width front behind ls ms bs first last line n)
include h

theorem append_eq : front ++ behind = "\n".intercalate (ls ++ (first ++ last) :: bs) := by
  rw [h.front_eq, h.behind_eq, intercalate_append_intercalate]

theorem isComment_eq : Line.isComment (first ++ last) = false := by
  rw [h.line_eq, isComment_spaced, h.condenses.code]

theorem one_line : '\n' ∉ (first ++ last).toList :=
  (h.written.plain _ (List.mem_singleton_self _)).one_line

/-- No comment starts where the two parts meet. -/
theorem startsComment_eq (d : Char) (ds : List Char) (hbehind : behind.toList = d :: ds) :
    startsComment (marginAfter (some 0) front.toList) d ds = false := by
  rw [← Bool.not_eq_true]
  intro hstarts
  obtain ⟨before, hbefore, htext⟩ := exists_intercalate_concat ls
  obtain ⟨rest, hrest, htext'⟩ := exists_intercalate_cons bs
  have hline := h.one_line
  rw [String.toList_append, List.mem_append, not_or] at hline
  rw [h.front_eq, htext] at hstarts
  rw [h.behind_eq, htext'] at hbehind
  have hblank : ∀ e ∈ rest.head?, isBlank e = true := fun e he ↦ by
    rcases hrest with rfl | hlf
    · cases he
    · obtain rfl : '\n' = e := Option.some.inj (hlf.symm.trans he)
      rfl
  have hcomment := isComment_of_startsComment_append hbefore hline.1 hstarts hbehind.symm hblank
  rw [← String.toList_append, String.ofList_toList, h.isComment_eq] at hcomment
  cases hcomment

/-- The spaces at the end of the card may be left out. -/
theorem exists_tokenize (hwidth : Limits.continuationColumns < width) {ts : List Token}
    (hts : tokenize .cell (front ++ behind) = .ok ts) :
    ∃ us gap, ts = us ++ gap ∧ (∀ t ∈ gap, t.isLayout = true) ∧
      tokenize .cell ("\n".intercalate (ls ++ line :: bs)) = .ok us := by
  rw [h.append_eq] at hts
  rcases h.spaces with rfl | ⟨rfl, hmark⟩
  · have hline : first ++ last = line := by
      rw [h.line_eq, Line.spaced, List.replicate_zero, List.append_nil, String.ofList_toList]
    rw [hline] at hts
    exact ⟨ts, [], (List.append_nil _).symm, by simp, hts⟩
  · have hspaced : "\n".intercalate (ls ++ [first ++ last]) =
        String.ofList (("\n".intercalate (ls ++ [line])).toList ++ List.replicate n ' ') := by
      rw [h.line_eq, Line.spaced, intercalate_concat_append,
        String.ofList_append, String.ofList_toList]
    obtain ⟨before, hbefore, htext⟩ := exists_intercalate_concat ls
    have hlast : ∀ t ∈ ts.getLast?, t.kind.isComment = false := by
      have hcuts := (tokenize_eq_ok_iff.mp hts).1
      rw [htext] at hcuts
      refine isComment_of_mem_getLast? hcuts hbefore h.one_line ?_ ?_
      · rw [h.line_eq, Line.spaced, String.toList_ofList, List.mem_append, not_or]
        exact ⟨hmark, fun hmem ↦ absurd (List.eq_of_mem_replicate hmem) (by decide)⟩
      · rw [String.ofList_toList, h.isComment_eq]
    have hends : ∀ d ∈ ("\n".intercalate (ls ++ [line])).toList.getLast?,
        isAsciiBlank d = false := by
      have htrimmed := (Line.isKept_keep hwidth (first ++ last)).trimmed
      have hsolid := h.written.solid _ (List.mem_singleton_self _)
      rw [h.kept] at htrimmed hsolid
      have hne : line.toList ≠ [] := by simpa using hsolid
      intro d hd
      rw [htext, List.getLast?_append_of_ne_nil _ hne, List.getLast?_eq_some_getLast hne] at hd
      obtain rfl := Option.some.inj hd
      rw [← Bool.not_eq_true]
      intro hblank
      have hends : endsLine [line.toList.getLast hne] = true := hblank
      exact List.rdropWhile_eq_self_iff.mp htrimmed hne (isBlank_of_endsLine hends)
    obtain ⟨us, gap, rfl, hgap, hus⟩ := exists_tokenize_trimmed (hspaced ▸ hts) hlast hends
    exact ⟨us, gap, rfl, hgap, by rwa [String.ofList_toList] at hus⟩

end

/-- The card without the parameter is the cell without it. -/
theorem exists_parse (hwidth : Limits.continuationColumns < width)
    (hcard : card.parse = .ok (.cell c)) (htext : (Record.cell c).text = card.text)
    (hremove : c.parameters.remove? key = some (p, ps)) (hi : c.parameters.find? key = some i)
    (h : card.ClosesUp options width (c.textUpTo i) (c.textBehind i) ls ms bs first last line n) :
    ∃ c', ({ card with lines := ls ++ line :: bs } : Card).parse = .ok (.cell c') ∧
      (c.setParameters ps).Alike c' := by
  obtain ⟨hblock, -, ts, hts, hparse⟩ := Card.parse_eq_cell_iff.mp hcard
  obtain ⟨ts', hts', c₁, hparse₁, halike₁⟩ :=
    CellRecord.exists_parse_removed hts hparse htext hremove hi h.apart h.startsComment_eq
  obtain ⟨us, gap, rfl, hgap, hus⟩ := h.exists_tokenize hwidth hts'
  obtain ⟨c₂, hparse₂, halike₂⟩ :=
    CellRecord.exists_parse_trimmed (spells_of_tokensFrom hts') hgap hparse₁
  exact ⟨c₂, Card.parse_eq_cell_iff.mpr ⟨hblock, h.own, us, hus, hparse₂⟩, halike₁.trans halike₂⟩

end Card.ClosesUp

/-! ## Decks of one file -/

namespace RawDeck

variable {options : ReadOptions} {files : Files.Source} {path text : String} {raw : RawDeck}

/-- If no card asks for a file, all of them stand in that of the deck. -/
theorem depth_eq_zero (h : ofText options files path text = .ok raw)
    (hown : ∀ c ∈ raw.cards, c.target? = none) : ∀ c ∈ raw.cards, c.depth = 0 := by
  obtain ⟨width, hwidth⟩ := width_of_ofText h
  have hcards := (readsDeck_of_ofText h).ownCards_eq hwidth hown
  exact fun c hc ↦ ((of_ownCards hcards).2 c hc).2

end RawDeck

/-! ## Records -/

/-- What a record says, and in which block. -/
def DeckRecord.content (r : DeckRecord) : Block × Record := (r.block, r.record)

namespace Card

variable {c c' : Card} {r : Record}

/-- What is made of a card depends on its block and its lines. -/
theorem parse_congr (h : c.shape = c'.shape) : c.parse = c'.parse := by
  obtain ⟨block, lines, path, first, depth⟩ := c
  obtain ⟨block', lines', path', first', depth'⟩ := c'
  obtain ⟨rfl, rfl⟩ := Prod.mk.inj h
  rfl

/-- What the record of the card says. -/
def content (c : Card) : Block × Record := (c.block, (c.verdict false).record)

theorem content_congr (h : c.shape = c'.shape) : c.content = c'.content := by
  obtain ⟨hblock, hlines⟩ := Prod.mk.inj h
  rw [content, content, verdict, verdict, hblock, parse_congr h]
  cases c'.parse with
  | ok r => cases r <;> rfl
  | error errors =>
    exact congrArg (fun ls ↦ (c'.block, Record.verbatim (.ofText ("\n".intercalate ls)))) hlines

theorem map_content_congr {cs cs' : List Card} (h : cs.map shape = cs'.map shape) :
    cs.map content = cs'.map content := by
  have hshape : content = (fun s ↦ content ⟨s.1, s.2, "", 0, 0⟩) ∘ shape :=
    funext fun c ↦ content_congr rfl
  rw [hshape, ← List.map_map, h, List.map_map]

theorem content_of_parse (h : c.parse = .ok r) : c.content = (c.block, r) := by
  rw [content, verdict, h]
  cases r <;> rfl

theorem exists_parse_of_rejection?_eq_none (h : c.rejection? = none) : ∃ r, c.parse = .ok r := by
  rw [rejection?] at h
  split at h
  · next r hr => exact ⟨r, hr⟩
  · cases h

theorem stop?_of_parse (h : c.parse = .ok r) (o : ProcessOptions) : c.stop? o = none := by
  rw [stop?, rejection?, h]
  rfl

end Card

namespace Deck

variable {o : ProcessOptions} {files : Files.Source} {path text : String}
  {raw : RawDeck} {deck : Deck}

/-- A deck is clean if none of its cards is rejected. -/
theorem exists_parse_of_errors (h : ofText o files path text = .ok deck) (hcheck : o.check = false)
    (herrors : deck.errors = []) (hraw : RawDeck.ofText o.reading files path text = .ok raw) :
    deck = ofVerdicts o raw (raw.cards.map (·.verdict o.check)) ∧
      ∀ c ∈ raw.cards, ∃ r, c.parse = .ok r := by
  obtain ⟨raw', hraw', -, rfl⟩ := (ofText_eq_ok_iff ..).mp h
  obtain rfl := Except.ok.inj (hraw.symm.trans hraw')
  rw [ofVerdicts_verdict, hcheck] at herrors
  exact ⟨rfl, fun c hc ↦
    Card.exists_parse_of_rejection?_eq_none (List.filterMap_eq_nil_iff.mp herrors c hc)⟩

theorem ofText_of_parse (hraw : RawDeck.ofText o.reading files path text = .ok raw)
    (h : ∀ c ∈ raw.cards, ∃ r, c.parse = .ok r) :
    ofText o files path text = .ok (ofVerdicts o raw (raw.cards.map (·.verdict o.check))) :=
  (ofText_eq_ok_iff ..).mpr ⟨raw, hraw, fun c hc ↦ Card.stop?_of_parse (h c hc).choose_spec o, rfl⟩

theorem errors_of_parse (o : ProcessOptions) (h : ∀ c ∈ raw.cards, ∃ r, c.parse = .ok r) :
    (ofVerdicts o raw (raw.cards.map (·.verdict o.check))).errors = [] := by
  have hnone : raw.cards.filterMap Card.rejection? = [] :=
      List.filterMap_eq_nil_iff.mpr fun c hc ↦ by
    obtain ⟨r, hr⟩ := h c hc
    rw [Card.rejection?, hr]
  rw [ofVerdicts_verdict]
  dsimp only
  rw [hnone, ite_self]

theorem map_content_ofVerdicts (o : ProcessOptions) (raw : RawDeck) :
    (ofVerdicts o raw (raw.cards.map (·.verdict o.check))).records.map DeckRecord.content =
      raw.cards.map Card.content := by
  rw [ofVerdicts_verdict, List.map_map]
  rfl

/-- A deck whose own records are written as cards is laid out like these. -/
theorem text_eq_deckText (hmessage : deck.message = raw.message)
    (htitle : deck.title = raw.title.getD "") (hterminated : deck.terminated = raw.terminated)
    (hrendered : deck.rendered.map (fun r ↦ (r.1, r.2.text)) =
      raw.cards.map fun c ↦ (c.block, c.text)) : deck.text = raw.deckText := by
  have htexts (b : Block) : textsIn b deck.rendered = raw.textsIn b := by
    have hmap := congrArg (fun rs ↦ (rs.filter (·.1 = b)).map Prod.snd) hrendered
    simp only [List.filter_map, List.map_map] at hmap
    exact hmap
  rw [text, textWith, RawDeck.deckText, hmessage, htitle, hterminated, htexts, htexts, htexts]

variable {before after : List Card} {card : Card} {c : CellRecord} {key : String} {p : Parameter}
  {ps : Parameters} {w : LineWidth} {ls ms bs : List String} {first last line : String} {i n : Nat}

/-- A deck whose records stand in one file is written with all of them. -/
theorem rendered_eq (hdepth : ∀ r ∈ deck.records, r.depth = 0) :
    deck.rendered = deck.records.map fun r ↦ (r.block, r.record.render deck.tolerance) := by
  rw [rendered, List.filter_eq_self.mpr fun r hr ↦ by rw [DeckRecord.isOwn, hdepth r hr]; rfl]

theorem modify_append_cons {α : Type} (f : α → α) (as bs : List α) (b : α) :
    (as ++ b :: bs).modify as.length f = as ++ f b :: bs := by
  rw [List.modify_eq_take_cons_drop (by simp)]
  simp

/-- Another record in place of that of a card. -/
theorem records_setRecord (r : Record) (hcards : raw.cards = before ++ card :: after) :
    ((ofVerdicts o raw (raw.cards.map (·.verdict o.check))).setRecord before.length r).records =
      before.map (fun c ↦ .of c (c.verdict false).record) ++ .of card r ::
        after.map (fun c ↦ .of c (c.verdict false).record) := by
  have hmodify := modify_append_cons (fun old ↦ { old with record := r })
    (before.map fun c ↦ DeckRecord.of c (c.verdict false).record)
    (after.map fun c ↦ DeckRecord.of c (c.verdict false).record)
      (.of card (card.verdict false).record)
  rw [List.length_map] at hmodify
  rw [ofVerdicts_verdict, setRecord, hcards, List.map_append, List.map_cons]
  exact hmodify

/-- If every record is written as its card, and another one in place of a card as the lines of it,
the deck is laid out with these lines. -/
theorem text_setRecord {r : Record} (hcards : raw.cards = before ++ card :: after)
    (hdepth : ∀ c ∈ raw.cards, c.depth = 0) (htolerance : o.tolerance = .standard)
    (hfaithful : ∀ c ∈ raw.cards, ((c.verdict false).record).text = c.text)
    (htext : r.text = "\n".intercalate ls) :
    ((ofVerdicts o raw (raw.cards.map (·.verdict o.check))).setRecord before.length r).text =
      (raw.withLines before card after ls).deckText := by
  have hrecords := records_setRecord (o := o) r hcards
  generalize hedited :
    (ofVerdicts o raw (raw.cards.map (·.verdict o.check))).setRecord before.length r = edited at *
  have hsame : edited.message = raw.message ∧ edited.title = raw.title.getD "" ∧
    edited.terminated = raw.terminated ∧
      edited.tolerance = .standard := by
    rw [← hedited]
    exact ⟨rfl, rfl, rfl, htolerance⟩
  obtain ⟨hmessage, htitle, hterminated, htolerance⟩ := hsame
  rw [hcards, List.forall_mem_append, List.forall_mem_cons] at hdepth hfaithful
  have hown : ∀ r ∈ edited.records, r.depth = 0 := by
    rw [hrecords, List.forall_mem_append, List.forall_mem_cons,
      List.forall_mem_map, List.forall_mem_map]
    exact hdepth
  have hrendered (cs : List Card) (hcs : ∀ c ∈ cs, ((c.verdict false).record).text = c.text) :
      cs.map (fun c ↦ (c.block, ((c.verdict false).record.render .standard).text)) =
        cs.map fun c ↦ (c.block, c.text) :=
    List.map_congr_left fun c hc ↦ congrArg (c.block, ·) (hcs c hc)
  refine text_eq_deckText hmessage htitle hterminated ?_
  rw [rendered_eq hown, hrecords, htolerance, List.map_map, List.map_append, List.map_cons,
    List.map_map, List.map_map, RawDeck.withLines, List.map_append, List.map_cons]
  exact congrArg₂ (· ++ ·) (hrendered before hfaithful.1)
    (congrArg₂ (· :: ·) (congrArg (card.block, ·) htext) (hrendered after hfaithful.2.2))

/-- A deck is written as its text, laid out. -/
theorem exists_write (deck : Deck) (hw : LineWidth.ofVersion deck.version = .ok w) :
    ∃ out, deck.write = .ok out ∧ out.text = (deck.text.layOut w).text := by
  unfold write
  rw [hw]
  exact ⟨_, rfl, rfl⟩

/-- Without a parameter of one of its cells a clean deck, all of whose records are written as they
were read, is read again as the same deck, but for that parameter, if the cell closes up. -/
theorem reread_of_remove? (h : ofText o files path text = .ok deck) (hcheck : o.check = false)
    (herrors : deck.errors = []) (htolerance : o.tolerance = .standard)
    (hraw : RawDeck.ofText o.reading files path text = .ok raw)
    (hown : ∀ c ∈ raw.cards, c.target? = none) (hsolid : ∀ c ∈ raw.cards, "" ∉ c.lines)
    (hfaithful : ∀ c ∈ raw.cards, ∀ r, c.parse = .ok r → r.text = c.text)
    (hw : LineWidth.ofVersion o.version = .ok w) (hcards : raw.cards = before ++ card :: after)
    (hcard : card.parse = .ok (.cell c)) (hremove : c.parameters.remove? key = some (p, ps))
    (hi : c.parameters.find? key = some i)
    (hcloses : card.ClosesUp o.reading w.columns (c.textUpTo i)
      (c.textBehind i) ls ms bs first last line n) :
    ∃ out deck' c', (deck.setRecord before.length (.cell (c.setParameters ps))).write = .ok out ∧
      ofText o files path out.text = .ok deck' ∧ deck'.errors = [] ∧ (c.setParameters ps).Alike c' ∧
      deck'.records.map DeckRecord.content =
        (deck.records.map DeckRecord.content).set before.length (.cell, .cell c') := by
  obtain ⟨rfl, hclean⟩ := exists_parse_of_errors h hcheck herrors hraw
  have hmem : card ∈ raw.cards := hcards ▸ List.mem_append_right _ List.mem_cons_self
  have hblock := (Card.parse_eq_cell_iff.mp hcard).1
  obtain ⟨c', hparse, halike⟩ :=
    hcloses.exists_parse w.room hcard (hfaithful card hmem _ hcard) hremove hi
  have hwritten : ∀ c ∈ raw.cards, ((c.verdict false).record).text = c.text := fun c hc ↦ by
    obtain ⟨r, hr⟩ := hclean c hc
    rw [show (c.verdict false).record = r from congrArg Prod.snd (Card.content_of_parse hr)]
    exact hfaithful c hc r hr
  have htext := text_setRecord (o := o) hcards (RawDeck.depth_eq_zero hraw hown) htolerance hwritten
    ((CellRecord.text_of_remove? hremove hi).trans hcloses.append_eq)
  have htarget : ({ card with lines := ls ++ line :: bs } : Card).target? = none := by
    rw [Card.target?, hcloses.own, if_neg Bool.false_ne_true]
  obtain ⟨raw', hraw', -, -, hshapes⟩ :=
    RawDeck.exists_ofText_of_replaced hraw hown hsolid hw hcards hblock hcloses.lines_eq
      hcloses.written hcloses.fits (hcloses.kept.symm ▸ hcloses.condenses)
    (hcloses.kept.symm ▸ hcloses.ends) (hcloses.kept.symm ▸ htarget)
  -- The cards that are read again, up to their places.
  let new : Card := { card with lines := ls ++ line :: bs }
  have hnew : raw'.cards.map Card.shape = (before ++ new :: after).map Card.shape := by
    rw [hshapes, hcloses.kept, List.map_append, List.map_cons, ← hblock]
    rfl
  have hnewClean : ∀ c ∈ before ++ new :: after, ∃ r, c.parse = .ok r := by
    rw [hcards, List.forall_mem_append, List.forall_mem_cons] at hclean
    exact List.forall_mem_append.mpr ⟨hclean.1, List.forall_mem_cons.mpr ⟨⟨_, hparse⟩, hclean.2.2⟩⟩
  have hraw'Clean : ∀ c ∈ raw'.cards, ∃ r, c.parse = .ok r := fun c hc ↦ by
    obtain ⟨c₀, hc₀, hshape⟩ := List.mem_map.mp (hnew ▸ List.mem_map_of_mem (f := Card.shape) hc)
    rw [← Card.parse_congr hshape]
    exact hnewClean c₀ hc₀
  obtain ⟨out, hout, houtText⟩ := exists_write
    ((ofVerdicts o raw (raw.cards.map (·.verdict o.check))).setRecord before.length
      (.cell (c.setParameters ps))) hw
  rw [htext] at houtText
  refine ⟨out, _, c', hout, ofText_of_parse (houtText.symm ▸ hraw') hraw'Clean,
    errors_of_parse o hraw'Clean, halike, ?_⟩
  have hnewContent : new.content = (Block.cell, .cell c') := by
    rw [Card.content_of_parse hparse, ← hblock]
  rw [map_content_ofVerdicts, map_content_ofVerdicts, Card.map_content_congr hnew, hcards,
    List.map_append, List.map_cons, hnewContent, List.map_append, List.map_cons]
  simp

/-- A cell closes up over the end of a line. -/
theorem reread_of_closed_line :
    ∃ (o : ProcessOptions) (files : Files.Source) (deck : Deck) (c : CellRecord) (p : Parameter)
      (ps : Parameters) (out : Rendered) (deck' : Deck) (c' : CellRecord),
    ofText o files "deck" "t\n1 0 -1 imp:n=1 vol=2\n     u=3\n2 0 1\n\n1 so 5\n" = .ok deck ∧
      (deck.records.map DeckRecord.content).head? = some (.cell, .cell c) ∧
      c.parameters.remove? "vol" = some (p, ps) ∧
      (deck.setRecord 0 (.cell (c.setParameters ps))).write = .ok out ∧
      ofText o files "deck" out.text = .ok deck' ∧
      (c.setParameters ps).Alike c' ∧ deck'.records.map DeckRecord.content =
      (deck.records.map DeckRecord.content).set 0 (.cell, .cell c') := by
  let o : ProcessOptions := ⟨false, false, .standard, true, .standard⟩
  let files : Files.Source := fun _ ↦ .error .notFound
  let card : Card := ⟨.cell, ["1 0 -1 imp:n=1 vol=2", "     u=3"], "deck", 2, 0⟩
  let after : List Card := [⟨.cell, ["2 0 1"], "deck", 4, 0⟩, ⟨.surface, ["1 so 5"], "deck", 6, 0⟩]
  have hraw :
    RawDeck.ofText o.reading files "deck" "t\n1 0 -1 imp:n=1 vol=2\n     u=3\n2 0 1\n\n1 so 5\n" =
      .ok ⟨none, some "t", card :: after, [], false⟩ := by decide +kernel
  have hall : (card :: after).all (fun c ↦ c.parse.toOption.any fun r ↦ r.text == c.text) =
      true := by decide +kernel
  have hparse : ∀ c ∈ card :: after, ∃ r, c.parse = .ok r ∧ r.text = c.text := fun c hc ↦ by
    obtain ⟨r, hr, htext⟩ := Except.exists_of_any (List.all_eq_true.mp hall c hc)
    exact ⟨r, hr, eq_of_beq htext⟩
  obtain ⟨c, hc, hproperties⟩ := Card.exists_cell card
    (fun c ↦ c.textUpTo 1 == "1 0 -1 imp:n=1 " && c.textBehind 1 == "u=3" &&
    c.parameters.find? "vol" == some 1 &&
      (c.parameters.remove? "vol").isSome) (by decide +kernel)
  simp only [Bool.and_eq_true, beq_iff_eq] at hproperties
  obtain ⟨⟨⟨hfront, hbehind⟩, hi⟩, hsome⟩ := hproperties
  obtain ⟨⟨p, ps⟩, hremove⟩ := Option.isSome_iff_exists.mp hsome
  have hclean : ∀ c ∈ card :: after, ∃ r, c.parse = .ok r :=
    fun c hc ↦ (hparse c hc).imp fun _ h ↦ h.1
  have hdeck := ofText_of_parse hraw hclean
  have hlast : "1 0 -1 imp:n=1 ".toList.getLast? = some ' ' := by decide +kernel
  have hcloses : card.ClosesUp o.reading 128 (c.textUpTo 1) (c.textBehind 1)
    [] card.lines [] "1 0 -1 imp:n=1 " "u=3"
      "1 0 -1 imp:n=1 u=3" 0 := by
    rw [hfront, hbehind]
    exact {
      lines_eq := rfl
      front_eq := by decide +kernel
      behind_eq := by decide +kernel
      line_eq := by decide +kernel
      apart := fun b hb ↦ by
        obtain rfl := Option.some.inj (hlast.symm.trans hb)
        decide
      spaces := .inl rfl
      written := ⟨by
        rw [List.forall_mem_singleton]
        exact ⟨by decide +kernel, by decide +kernel, by decide +kernel⟩, by
          decide +kernel, by decide +kernel⟩
      kept := by decide +kernel
      fits := .inl (by decide +kernel)
      condenses := ⟨⟨_, _, rfl, by decide +kernel, by decide +kernel⟩, by decide +kernel⟩
      ends := .inl (by decide +kernel)
      own := by decide +kernel }
  obtain ⟨out, deck', c', hout, hdeck', -, halike, hrecords⟩ :=
    reread_of_remove? (w := ⟨128, by decide⟩) hdeck rfl (errors_of_parse o hclean)
      rfl hraw (by decide +kernel) (by decide +kernel)
    (fun c hc r hr ↦ by
      obtain ⟨r', hr', htext⟩ := hparse c hc
      obtain rfl := Except.ok.inj (hr.symm.trans hr')
      exact htext) rfl (List.nil_append (card :: after)).symm hc hremove hi hcloses
  refine ⟨o, files, _, c, p, ps, out, deck', c', hdeck, ?_, hremove, hout, hdeck', halike, hrecords⟩
  rw [map_content_ofVerdicts, List.map_cons, List.head?_cons, Card.content_of_parse hc]

/-- What is left of a line is blank, and the cells behind it become surfaces. -/
theorem not_reread_of_remove? :
    ∃ (o : ProcessOptions) (files : Files.Source) (text : String) (deck deck' : Deck)
      (r : DeckRecord) (c : CellRecord) (p : Parameter) (ps : Parameters) (out : Rendered),
    ofText o files "deck" text = .ok deck ∧ o.check = false ∧ deck.errors =
      [] ∧ deck.records.all (·.isOwn) = true ∧ deck.records[0]? = some r ∧ r.record = .cell c ∧
      c.parameters.remove? "vol" = some (p, ps) ∧
      (deck.setRecord 0 (.cell (c.setParameters ps))).write = .ok out ∧
      ofText o files "deck" out.text = .ok deck' ∧ deck'.ownCount .cell ≠ deck.ownCount .cell := by
  let o : ProcessOptions := ⟨false, false, .standard, true, .standard⟩
  let files : Files.Source := fun _ ↦ .error .notFound
  let text := "t\n1 0 -1 imp:n=1\n     vol=2\n2 0 1\n\n1 so 5\n"
  have hcomputed :
    ((ofText o files "deck" text).toOption.any fun deck ↦ deck.records[0]?.any fun r ↦
      r.record.cell?.any fun c ↦ (c.parameters.remove? "vol").any fun q ↦
        (deck.setRecord 0 (.cell (c.setParameters q.2))).write.toOption.any fun out ↦
          (ofText o files "deck" out.text).toOption.any fun deck' ↦ deck.errors.isEmpty &&
            deck.records.all (·.isOwn) && deck'.ownCount .cell != deck.ownCount .cell) = true := by
            decide +kernel
  obtain ⟨deck, hdeck, hcomputed⟩ := Except.exists_of_any hcomputed
  obtain ⟨r, hr, hcomputed⟩ := (Option.any_eq_true _ _).mp hcomputed
  obtain ⟨c, hc, hcomputed⟩ := (Option.any_eq_true _ _).mp hcomputed
  obtain ⟨⟨p, ps⟩, hremove, hcomputed⟩ := (Option.any_eq_true _ _).mp hcomputed
  obtain ⟨out, hout, hcomputed⟩ := Except.exists_of_any hcomputed
  obtain ⟨deck', hdeck', hcomputed⟩ := Except.exists_of_any hcomputed
  have hc : r.record = .cell c := by
    cases hrecord : r.record with
    | cell c' =>
      rw [hrecord] at hc
      obtain rfl := Option.some.inj hc
      rfl
    | surface | data | read | verbatim =>
      rw [hrecord] at hc
      cases hc
  rw [Bool.and_eq_true, Bool.and_eq_true, List.isEmpty_iff, bne_iff_ne] at hcomputed
  obtain ⟨⟨herrors, hown⟩, hcount⟩ := hcomputed
  exact ⟨o, files, text, deck, deck', r, c, p, ps, out, hdeck, rfl, herrors, hown, hr, hc,
    hremove, hout, hdeck', hcount⟩

end Deck

end TransportDeck
