import TransportDeck.Proofs.Deck.Comments
import TransportDeck.Proofs.Deck.LineStarts
import TransportDeck.Proofs.Grammar.Records
import TransportDeck.Proofs.Grammar.Shifting
import TransportDeck.Proofs.Token.ShorterTexts
import TransportDeck.Proofs.Token.Words

/-!
# Marks in front of data records

Behind the token of an asterisk a data record is read as it is without one, and its classifier has
the mark.  But in a data record an asterisk is lexed as the symbol of a particle, which no name
stands behind: so no text of a data record that starts with a mark is read.
-/

namespace TransportDeck

open Text Lexer

namespace DataRecord

/-- The record with a mark in front of its name. -/
def marked (mark : String) (d : DataRecord) : DataRecord :=
  { d with classifier := { d.classifier with modifier := Field.parse? mark .text none } }

end DataRecord

namespace Production

variable {g : Grammar} {c c' : Cursor} {d : DataRecord} {modifier : Option Field}
  {t : Token} {ts us : List Token}

/-- A data record behind its classifier. -/
def dataBehind (g : Grammar) (leading : Option Layout) (cl : Classifier) : Production DataRecord :=
  do
  let keyword ← keyword? g
  let body ← body g cl
  let parameters ← parameters g
  finish
  return ⟨leading, cl, keyword, body, parameters⟩

theorem data_eq (g : Grammar) :
    data g = layout >>= fun leading ↦ classifier g >>= dataBehind g leading := rfl

theorem shifts_dataBehind (g : Grammar) (leading : Option Layout) {cl cl' : Classifier}
    (h : cl.word = cl'.word) :
    Shifts (fun d d' ↦ d.classifier = cl ∧ d' = { d with classifier := cl' })
      (dataBehind g leading cl) (dataBehind g leading cl') :=
  (shifts_keyword? g).bind_eq fun _ ↦ (shifts_body g h).bind_eq fun _ ↦
    (shifts_parameters g).bind_eq fun _ ↦
    shifts_finish.bind fun _ _ _ ↦ .pure ⟨rfl, rfl⟩

/-- A data record without layout in front, behind the mark of its name. -/
def dataBehindMark (g : Grammar) (modifier : Option Field) : Production DataRecord :=
  namedBy modifier >>= dataBehind g none

/-- What is read behind a mark is what is read without one, wherever it stands. -/
theorem shifts_dataBehindMark (g : Grammar) (mark : String) : Shifts (fun d d' ↦ d' = d.marked mark)
    (dataBehindMark g none) (dataBehindMark g (Field.parse? mark .text none)) := by
  refine (shifts_namedBy _ _).bind ?_
  rintro cl _ ⟨-, rfl⟩
  have hbehind :=
    shifts_dataBehind g none (show cl.word =
      { cl with modifier := Field.parse? mark .text none }.word from rfl)
  exact hbehind.mono fun d d' ⟨hcl, hd⟩ ↦ hd.trans (by rw [DataRecord.marked, hcl])

theorem run_data (hg : g.allows .classifier = true) (hc : c.rest = t :: ts)
    (ht : t.isLayout = false) (hmark : (word? isMark).run c = (.ok modifier, c')) :
    (data g).run c = (dataBehindMark g modifier).run c' := by
  rw [data_eq, run_bind_of_ok (run_layout_of_solid hc ht), classifier_eq hg,
    bind_assoc, run_bind_of_ok hmark]
  rfl

/-- Layout in front of a record is kept. -/
theorem isLayout_of_leading (hc : c.rest = t :: ts) (h : (data g).run c = (.ok d, c'))
    (hleading : d.leading = none) : t.isLayout = false := by
  obtain ⟨leading, c₁, hlayout, h⟩ := run_bind_ok h
  obtain ⟨_, c₂, -, h⟩ := run_bind_ok h
  obtain ⟨_, c₃, -, h⟩ := run_bind_ok h
  obtain ⟨_, c₄, -, h⟩ := run_bind_ok h
  obtain ⟨_, c₅, -, h⟩ := run_bind_ok h
  obtain ⟨_, c₆, -, ⟨⟩⟩ := run_bind_ok h
  obtain ⟨taken, c₇, ⟨⟩, ⟨⟩⟩ := run_bind_ok hlayout
  rw [TokenStream.takeWhile_fst_eq, show c.stream.rest = t :: ts from hc] at hleading
  cases ht : t.isLayout with
  | false => rfl
  | true =>
    rw [List.takeWhile_cons_of_pos ht] at hleading
    cases hleading

end Production

/-! ## Tokens -/

section

variable {d : DataRecord} {t : Token} {ts us : List Token}

theorem Cursor.isLayout_of_parse (h : (Cursor.of (.of (t :: ts))).parse .data = .ok (.data d))
    (hleading : d.leading = none) : t.isLayout = false := by
  obtain ⟨-, c', hrun, -⟩ := parse_eq_ok_iff.mp h
  obtain ⟨d', c₁, hdata, ⟨⟩⟩ := Production.run_bind_ok hrun
  exact Production.isLayout_of_leading rfl hdata hleading

/-- With a mark in front of its tokens a record is read as it is without, up to the mark. -/
theorem Cursor.parse_cons_mark (h : (Cursor.of (.of ts)).parse .data = .ok (.data d))
    (hleading : d.leading = none) (hts : ∀ u ∈ ts.head?, Production.isMark u = false)
    (halike : List.Forall₂ Token.Alike ts us) (ht : Production.isMark t = true) :
    (Cursor.of (.of (t :: us))).parse .data = .ok (.data (d.marked t.text)) := by
  cases ts with
  | nil => exact absurd (parse_eq_ok_iff.mp h).1 (by decide)
  | cons u ts =>
    have hu := isLayout_of_parse h hleading
    have htlayout := Token.isLayout_of_isMark ht
    obtain ⟨-, c', hrun, herrors⟩ := parse_eq_ok_iff.mp h
    obtain ⟨d', c₁, hdata, ⟨⟩⟩ := Production.run_bind_ok hrun
    have hrest : (Cursor.of (.of (u :: ts))).rest = u :: ts := rfl
    have hrest' : (Cursor.of (.of (t :: us))).rest = t :: us := rfl
    rw [Production.run_data rfl hrest hu (Production.run_word?_of_neg hrest (by simp [hts u rfl]))]
      at hdata
    have hmarked :=
      Production.run_data (g := .data) rfl hrest' htlayout (Production.run_word?_of_pos hrest' ht)
    have hshifted : Cursor.Shifted (Cursor.of (.of (u :: ts))) (Cursor.of (.of (t :: us))).next :=
      ⟨(Cursor.rest_next _ hrest').symm ▸ halike, rfl⟩
    obtain ⟨hresult, hplaces⟩ := Production.shifts_dataBehindMark .data t.text hshifted
    rcases hbehind : (Production.dataBehindMark .data (Field.parse? t.text .text none)).run
      (Cursor.of (.of (t :: us))).next with ⟨x, c₂⟩
    rw [hdata, hbehind] at hresult hplaces
    rw [hbehind] at hmarked
    cases hresult with
    | ok hd =>
      subst hd
      refine parse_eq_ok_iff.mpr
        ⟨TokenStream.onlyLayoutLeft_of ⟨t, List.mem_cons_self, htlayout⟩, c₂, ?_, ?_⟩
      · exact (Production.run_bind_of_ok hmarked).trans rfl
      · exact List.eq_nil_of_length_eq_zero (hplaces.errors.symm.trans (by rw [herrors]; rfl))

/-- No data record starts with the symbol of a particle. -/
theorem Cursor.parse_cons_symbols (ht : t.kind = .particleSymbols) :
    (Cursor.of (.of (t :: ts))).parse .data =
      .error [.unexpectedToken "record name" t.text t.span] := by
  have hrest : (Cursor.of (.of (t :: ts))).rest = t :: ts := rfl
  have hlayout : t.isLayout = false := Token.isLayout_of_kind ht rfl
  have hmark : ¬Production.isMark t = true := by simp [Production.isMark, ht]
  have hword : ¬Production.isWord t = true := by simp [Production.isWord, ht, TokenKind.isWord]
  have hname : (Production.dataBehindMark .data none).run (Cursor.of (.of (t :: ts))) =
      (.error (.unexpectedToken "record name" t.text t.span), Cursor.of (.of (t :: ts))) :=
    Production.run_bind_of_error
      ((Production.run_bind_of_ok (Production.run_word?_of_neg hrest hword)).trans rfl)
  have hrecord : (Production.record .data).run (Cursor.of (.of (t :: ts))) =
      (.error (.unexpectedToken "record name" t.text t.span), Cursor.of (.of (t :: ts))) :=
    Production.run_bind_of_error
      ((Production.run_data rfl hrest hlayout (Production.run_word?_of_neg hrest hmark)).trans
        hname)
  have hsolid : (Cursor.of (.of (t :: ts))).stream.onlyLayoutLeft = false :=
    TokenStream.onlyLayoutLeft_of ⟨t, List.mem_cons_self, hlayout⟩
  rw [parse, hsolid, hrecord]
  rfl

end

/-! ## Texts -/

/-- An asterisk at the start of a record, as a token of a kind. -/
def asteriskAs (kind : TokenKind) : Token := ⟨kind, "*", .ofText .start ['*']⟩

namespace Lexer

variable {c : Char} {cs : List Char} {ts us : List Token}

theorem isParticleSymbol_of_isAlpha (h : c.isAlpha = true) : isParticleSymbol c = false :=
  eq_false_of_isAlpha h isParticleSymbol (by decide)

theorem lexeme?_asterisk (hc : c.isAlpha = true) (cs : List Char) :
    lexeme? .data (some 0) '*' (c :: cs) = some (.particleSymbols, 1) := by
  have hsymbol : isParticleSymbol '*' = true := by decide
  simp [lexeme?, startsComment, isAsciiBlank, wordLexeme?, nuclide?, thermalLaw?, numberWord?,
    number?, word, symbolLexeme?, digits, letters, sign, isSign, run, hsymbol,
    isParticleSymbol_of_isAlpha hc]

/-- In front of a letter an asterisk is a token of its own. -/
theorem cuts_asterisk (hc : c.isAlpha = true)
    (h : Cuts .data (some 0) .start ('*' :: c :: cs) ts []) :
    ∃ us, ts = asteriskAs .particleSymbols :: us ∧ Cuts .data none (Position.start.advance ['*'])
      (c :: cs) us [] := by
  cases ts with
  | nil => cases h
  | cons t us =>
    obtain ⟨kind, b, ds, cs', heq, rfl, lexeme, hus⟩ := h.exists_of_cons
    obtain ⟨rfl, htail⟩ : '*' = b ∧ c :: cs = ds ++ cs' := List.cons.inj heq
    rw [← htail, lexeme?_asterisk hc] at lexeme
    obtain ⟨rfl, hlength⟩ := Prod.mk.inj (Option.some.inj lexeme)
    obtain rfl : ds = [] := by simpa using hlength
    obtain rfl : c :: cs = cs' := htail
    exact ⟨us, rfl, hus⟩

section

variable {mode : LexMode} {margin : Option Nat} {p : Position} {t : Token}

/-- No mark of a name starts with a letter. -/
theorem isMark_of_cuts (hc : c.isAlpha = true) (h : Cuts mode margin p (c :: cs) (t :: ts) []) :
    Production.isMark t = false := by
  have hspells := h.spellsName t List.mem_cons_self
  obtain ⟨kind, b, ds, cs', heq, rfl, -, -⟩ := h.exists_of_cons
  obtain ⟨rfl, -⟩ : c = b ∧ cs = ds ++ cs' := List.cons.inj heq
  rw [← Bool.not_eq_true]
  intro hmark
  have htext := hspells.mark (by simpa [Production.isMark] using hmark)
  rw [String.toList_ofList] at htext
  rcases htext with htext | htext <;> rw [(List.cons.inj htext).1] at hc <;> cases hc

/-- A text with a token in front starts with no comment. -/
theorem startsComment_of_cuts (hc : c.isAlpha = true)
    (h : Cuts mode margin p (c :: cs) (t :: ts) []) (ht : t.isLayout = false) :
    startsComment margin c cs = false := by
  obtain ⟨kind, b, ds, cs', heq, rfl, lexeme, -⟩ := h.exists_of_cons
  obtain ⟨rfl, rfl⟩ : c = b ∧ cs = ds ++ cs' := List.cons.inj heq
  rw [← Bool.not_eq_true]
  intro hcomment
  have hcomplement : (c == '#') = false := eq_false_of_isAlpha hc (· == '#') (by decide)
  have hdollar : (c == '$') = false := eq_false_of_isAlpha hc (· == '$') (by decide)
  rw [lexeme?, hcomplement, hdollar, hcomment] at lexeme
  obtain ⟨rfl, -⟩ := Prod.mk.inj (Option.some.inj lexeme)
  cases ht

end

/-- Behind an asterisk the tokens are the same, unless the record starts with a comment or there are
too many. -/
theorem exists_tokenize_asterisk {text text' : String} (hc : c.isAlpha = true)
    (htext : text.toList = c :: cs) (htext' : text'.toList = '*' :: c :: cs)
    (h : tokenize .data text = .ok ts) (hsolid : ∀ t ∈ ts.head?, t.isLayout = false)
    (hroom : ts.length < Limits.tokens) :
    ∃ us, tokenize .data text' = .ok (asteriskAs .particleSymbols :: us) ∧
      List.Forall₂ Token.Alike ts us := by
  obtain ⟨hcuts, hshort, -⟩ := tokenize_eq_ok_iff.mp h
  rw [htext] at hcuts
  have hcomment : startsComment (some 0) c cs = false := by
    cases ts with
    | nil => cases hcuts
    | cons t ts => exact startsComment_of_cuts hc hcuts (hsolid t rfl)
  have hspace : c ≠ ' ' := by
    rintro rfl
    cases hc
  have hstart : Cuts.SameStart (some 0) none (c :: cs) := ⟨hspace, hcomment⟩
  obtain ⟨us, hus, halike⟩ := hcuts.moved (.inr hstart) (Position.start.advance ['*'])
  refine ⟨us, tokenize_eq_ok_iff.mpr ⟨?_, ?_, ?_⟩, halike⟩
  · rw [htext']
    exact (Cuts.cons (lexeme?_asterisk hc cs) hus : Cuts .data (some 0)
      .start (['*'] ++ c :: cs) _ [])
  · exact List.forall_mem_cons.mpr ⟨.inr (by decide), isShort_of_alike halike hshort⟩
  · rw [List.length_cons, ← halike.length_eq]
    exact hroom

end Lexer

/-! ## Cards -/

namespace VerbatimRecord

variable {text : String} {c : Char} {cs : List Char}

theorem nameOf?_of_isAlpha (hc : c.isAlpha = true) (htext : text.toList = c :: cs) :
    nameOf? text = some (String.ofList (lower ((c :: cs).takeWhile Char.isAlpha))) := by
  have hblank : isBlank c = false := eq_false_of_isAlpha hc isBlank (by decide)
  have hmark : (c == '*' || c == '+') = false :=
    eq_false_of_isAlpha hc (fun c ↦ c == '*' || c == '+') (by decide)
  simp [nameOf?, htext, trimStart, hblank, hmark, hc]

/-- The letters behind a mark are the name of a record. -/
theorem nameOf?_asterisk (hc : c.isAlpha = true) (htext : text.toList = '*' :: c :: cs) :
    nameOf? text = some (String.ofList (lower ((c :: cs).takeWhile Char.isAlpha))) := by
  have hblank : isBlank '*' = false := by decide
  have hmark : (c == '*' || c == '+') = false :=
    eq_false_of_isAlpha hc (fun c ↦ c == '*' || c == '+') (by decide)
  simp [nameOf?, htext, trimStart, hblank, hmark, hc]

end VerbatimRecord

namespace Card

variable {c : Card} {d : DataRecord}

/-- A request for a file does not start with a mark. -/
theorem isRead_of_asterisk {cs : List Char} (h : c.text.toList = '*' :: cs) : c.isRead = false := by
  rw [isRead_eq, codeLines]
  rw [text] at h
  cases hlines : c.lines with
  | nil =>
    rw [hlines] at h
    cases h
  | cons line ls =>
    obtain ⟨behind, hbehind, htext⟩ := exists_intercalate_cons ls
    rw [hlines, htext] at h
    obtain ⟨ds, hline⟩ : ∃ ds, line.toList = '*' :: ds := by
      cases hl : line.toList with
      | nil =>
        rw [hl, List.nil_append] at h
        rcases hbehind with rfl | hfeed
        · cases h
        · rw [h] at hfeed
          cases hfeed
      | cons b ds =>
        rw [hl] at h
        exact ⟨ds, by rw [(List.cons.inj h).1]⟩
    have hblank : isBlank '*' = false := by decide
    have hcode : Line.isComment line = false := by
      simp [Line.isComment, hline, hblank]
    have hopens : opensRead line = false := by
      have hsame (w : List Char) : sameWord (String.ofList ('*' :: w)) "read" = false := by
        rw [sameWord, String.toList_ofList]
        rfl
      rw [opensRead, head?_words, hline, List.dropWhile_cons_of_neg (by simp [hblank]),
        if_neg (List.cons_ne_nil _ _), List.takeWhile_cons_of_pos (by simp [hblank])]
      exact hsame _
    rw [List.filter_cons_of_pos (by simp [hcode])]
    exact hopens

/-- A data record is read with the grammar of its block. -/
theorem ofCard_of_data (h : c.parse = .ok (.data d)) :
    Grammar.ofCard c = .data ∧ Grammar.data.parse c.text = .ok (.data d) := by
  obtain hparse | hverbatim := parse_cases h
  swap
  · cases hverbatim
  have hkind := Grammar.grammarKind?_of_parse hparse
  have hgrammar : Grammar.ofCard c = .data := by
    unfold Grammar.ofCard Grammar.ofBlock at hkind ⊢
    split_ifs at hkind ⊢
    · cases hkind
    · cases hblock : c.block <;> rw [hblock] at hkind <;> first | rfl | cases hkind
  exact ⟨hgrammar, hgrammar ▸ hparse⟩

/-- No request for a file is one. -/
theorem isRead_of_data (h : c.parse = .ok (.data d)) : c.isRead = false := by
  have hgrammar := (ofCard_of_data h).1
  rw [← Bool.not_eq_true]
  intro hread
  rw [Grammar.ofCard, if_pos hread] at hgrammar
  cases hgrammar

theorem exists_tokens_of_data (h : c.parse = .ok (.data d)) :
    ∃ ts, tokenize .data c.text = .ok ts ∧ (Cursor.of (.of ts)).parse .data = .ok (.data d) := by
  obtain ⟨-, hparse⟩ := ofCard_of_data h
  unfold Grammar.parse at hparse
  split at hparse
  · cases hparse
  · next ts hts => exact ⟨ts, hts, hparse⟩

theorem parse_of_tokens {r : Record} {ts : List Token} (hgrammar : Grammar.ofCard c = .data)
    (hts : tokenize .data c.text = .ok ts) (h : (Cursor.of (.of ts)).parse .data = .ok r) :
    c.parse = .ok r := by
  have htokens : tokenize Grammar.data.mode c.text = .ok ts := hts
  rw [parse, hgrammar, Grammar.parse, htokens]
  simp only [h]

/-- The error of a data record that starts with an asterisk. -/
def asteriskError (c : Card) : SyntaxError :=
  match tokenize .data c.text with
  | .ok _ => .unexpectedToken "record name" "*" (asteriskAs .particleSymbols).span
  | .error e => .lexical e

theorem parse_eq_asteriskError {a : Char} {cs : List Char} (ha : a.isAlpha = true)
    (htext : c.text.toList = '*' :: a :: cs) :
    Grammar.data.parse c.text = .error [c.asteriskError] := by
  unfold Grammar.parse asteriskError
  split
  · next e he =>
    rw [show tokenize .data c.text = .error e from he]
  · next ts hts =>
    have htokens : tokenize .data c.text = .ok ts := hts
    obtain ⟨hcuts, -⟩ := tokenize_eq_ok_iff.mp htokens
    rw [htext] at hcuts
    obtain ⟨us, rfl, -⟩ := cuts_asterisk ha hcuts
    rw [htokens]
    exact Cursor.parse_cons_symbols rfl

theorem isUnsupported_asteriskError (c : Card) : c.asteriskError.isUnsupported = false := by
  unfold asteriskError
  split <;> rfl

/-- Whatever name stands behind the asterisk, the card is refused or kept as it is. -/
theorem parse_of_asterisk {a : Char} {cs : List Char} {name : String} (hblock : c.block = .data)
    (ha : a.isAlpha = true) (htext : c.text.toList = '*' :: a :: cs)
    (hname : VerbatimRecord.nameOf? c.text = some name) : c.parse =
      if Vocabulary.isModeledData name then .error [c.asteriskError]
        else .ok (.verbatim ⟨c.text, some name⟩) := by
  have hgrammar : Grammar.ofCard c = .data := by
    rw [Grammar.ofCard, isRead_of_asterisk htext, hblock]
    rfl
  unfold Card.parse canKeepVerbatim VerbatimRecord.ofText
  rw [hgrammar]
  dsimp only
  rw [parse_eq_asteriskError ha htext, hname]
  cases hmodeled :
    Vocabulary.isModeledData name <;> simp [Grammar.data, isUnsupported_asteriskError, hmodeled]

/-- What becomes of the record of a card if an asterisk is put in front of it. -/
structure LosesMark (c c' : Card) (d : DataRecord) : Prop where
  /-- The card is refused, or kept as it is if no grammar has its name. -/
  parse_eq : ∃ name, VerbatimRecord.nameOf? c.text = some name ∧ c'.parse =
    if Vocabulary.isModeledData name then .error [c'.asteriskError]
      else .ok (.verbatim ⟨c'.text, some name⟩)
  /-- The record would be read, with its mark, if the first token were no symbol of a particle. -/
  parse_as_mark : d.leading = none → ∀ ts, tokenize .data c.text = .ok ts →
    ts.length < Limits.tokens →
    ∃ us, tokenize .data c'.text = .ok (asteriskAs .particleSymbols :: us) ∧
      (Cursor.of (.of (asteriskAs .asterisk :: us))).parse .data = .ok (.data (d.marked "*"))

/-- No card of the data block is read as a data record with a mark in front of its name. -/
theorem losesMark {c c' : Card} {d : DataRecord} (h : c.parse = .ok (.data d))
    (hletter : c.text.toList.head?.any Char.isAlpha = true) (hblock : c'.block = .data)
    (htext : c'.text = "*" ++ c.text) : c.LosesMark c' d := by
  obtain ⟨-, hparse⟩ := ofCard_of_data h
  obtain ⟨a, cs, hcs, ha⟩ : ∃ a cs, c.text.toList = a :: cs ∧ a.isAlpha = true := by
    cases hcs : c.text.toList with
    | nil =>
      rw [hcs] at hletter
      cases hletter
    | cons a cs => exact ⟨a, cs, rfl, by simpa [hcs] using hletter⟩
  have hcs' : c'.text.toList = '*' :: a :: cs := by rw [htext, String.toList_append, hcs]; rfl
  constructor
  · have hname := VerbatimRecord.nameOf?_of_isAlpha ha hcs
    exact ⟨_, hname, parse_of_asterisk hblock ha hcs' (VerbatimRecord.nameOf?_asterisk ha hcs')⟩
  · intro hleading ts hts hroom
    have hrecord : (Cursor.of (.of ts)).parse .data = .ok (.data d) := by
      unfold Grammar.parse at hparse
      rwa [show tokenize Grammar.data.mode c.text = .ok ts from hts] at hparse
    have hsolid : ∀ t ∈ ts.head?, t.isLayout = false := by
      intro t ht
      obtain ⟨us, rfl⟩ := List.head?_eq_some_iff.mp ht
      exact Cursor.isLayout_of_parse hrecord hleading
    have hmark : ∀ t ∈ ts.head?, Production.isMark t = false := by
      intro t ht
      obtain ⟨us, rfl⟩ := List.head?_eq_some_iff.mp ht
      exact isMark_of_cuts ha (hcs ▸ (tokenize_eq_ok_iff.mp hts).1)
    obtain ⟨us, htokens, halike⟩ := exists_tokenize_asterisk ha hcs hcs' hts hsolid hroom
    exact ⟨us, htokens, Cursor.parse_cons_mark hrecord hleading hmark halike rfl⟩

/-- A transformation has a grammar, so one with a mark is refused. -/
theorem losesMark_of_transformation : ∃ (c c' : Card) (d : DataRecord), c.parse = .ok (.data d) ∧
    c.text.toList.head?.any Char.isAlpha = true ∧ c'.block = .data ∧
      c'.text = "*" ++ c.text ∧ c.LosesMark c' d := by
  let c : Card := ⟨.data, ["tr1 0 0 5"], "deck.i", 1, 0⟩
  let c' : Card := ⟨.data, ["*tr1 0 0 5"], "deck.i", 1, 0⟩
  obtain ⟨r, hparse, hany⟩ :=
    Except.exists_of_any (x := c.parse) (p := fun r ↦ r.data?.isSome) (by decide +kernel)
  cases r with
  | data d =>
    exact ⟨c, c', d, hparse, by
      decide, rfl, by decide, losesMark hparse (by decide) rfl (by decide)⟩
  | _ => cases hany

/-- The mark of a transformation is found where a name is expected. -/
theorem parse_eq_error_of_asterisk :
    ∃ (c c' : Card) (d : DataRecord)
      (span : Span), c.parse = .ok (.data d) ∧ c.text.toList.head?.any Char.isAlpha = true ∧
      c'.block = .data ∧ c'.text = "*" ++ c.text ∧
    c'.parse = .error [.unexpectedToken "record name" "*" span] := by
  let c : Card := ⟨.data, ["tr1 0 0 5"], "deck.i", 1, 0⟩
  let c' : Card := ⟨.data, ["*tr1 0 0 5"], "deck.i", 1, 0⟩
  obtain ⟨r, hparse, hany⟩ :=
    Except.exists_of_any (x := c.parse) (p := fun r ↦ r.data?.isSome) (by decide +kernel)
  obtain ⟨ts, hts, -⟩ :=
    Except.exists_of_any (x := tokenize .data c'.text) (p := fun _ ↦ true) (by decide +kernel)
  have htext : c'.text.toList = '*' :: 't' :: "r1 0 0 5".toList := by decide
  have hname : VerbatimRecord.nameOf? c'.text = some "tr" := by decide
  have hrefused : c'.parse = .error [c'.asteriskError] :=
    parse_of_asterisk rfl (by decide) htext hname
  rw [asteriskError, hts] at hrefused
  cases r with
  | data d => exact ⟨c, c', d, _, hparse, by decide, rfl, by decide, hrefused⟩
  | _ => cases hany

end Card

end TransportDeck
