import TransportDeck.Proofs.Deck.SoleRecords
import TransportDeck.Proofs.Node.Additions
import TransportDeck.Proofs.Token.LongerTexts

/-!
# Inserted parameters

A parameter that is put into a cell is written behind the record.  It takes effect there, and the
record stays one, if no comment is open at the end and something sets the two apart.
-/

namespace TransportDeck

open Text Reading Lexer Production

variable {width n : Nat} {ls : List String} {line : String} {rest : List Char}

/-! ## Longer cells -/

/-- The cell with one more parameter behind the others, up to layout. -/
structure CellRecord.IsGrown (c : CellRecord) (p : Parameter) (c' : CellRecord) : Prop where
  heading : c.SameHeading c'
  parameters : ∃ qs q, c'.parameters.params = qs ++ [q] ∧ SameParameters c.parameters.params qs ∧
    q.key = p.key ∧ q.separator.isSome = true ∧ q.values.values = p.values.values

section Parsing

variable {cl : Classifier} {name : String} {letters : List Char} {k : Int}
  {ts : List Token} {c : CellRecord}

theorem SameParameters.exists_concat {ps qs : List Parameter} {p : Parameter}
    (h : SameParameters (ps ++ [p]) qs) :
    ∃ rs q, qs = rs ++ [q] ∧ SameParameters ps rs ∧ p.bare = q.bare := by
  induction ps generalizing qs with
  | nil =>
    obtain ⟨q, rs, hq, hrs, rfl⟩ := List.forall₂_cons_left_iff.mp h
    cases hrs
    exact ⟨[], q, rfl, .nil, hq⟩
  | cons p' ps ih =>
    obtain ⟨q', rs, hq', hrs, rfl⟩ := List.forall₂_cons_left_iff.mp h
    obtain ⟨rs, q, rfl, hsame, hq⟩ := ih hrs
    exact ⟨q' :: rs, q, rfl, .cons hq' hsame, hq⟩

theorem stops_of_areKeywordParameter (h : AreKeywordParameter name letters k ts) : Stops ts := by
  obtain ⟨word, qs, equals, number, rfl, hword, -⟩ := h.exists_tokens
  rintro _ ⟨⟩
  exact .inl (by simp [isWord, hword, TokenKind.isWord])

/-- A new parameter behind a record, as a seam between the two. -/
def Seam.beforeParameter (h : AreKeywordParameter name letters k ts) : Seam where
  left := []
  right := ts
  left_stops := Seam.stops_nil
  right_stops := stops_of_areKeywordParameter h

/-- The parameter that the tokens spell goes on with the others. -/
theorem exists_parse_append {ms ls ks us : List Token} (hlex : ∀ t ∈ ms ++ ls, Spells t.kind t.text)
    (hparse : (Cursor.of (.of (ms ++ ls))).parse .cell = .ok (.cell c))
    (hls : ∀ t ∈ ls, t.isLayout = true) (hks : ∀ t ∈ ks, t.isLayout = true)
    (hedge : ks = [] → ls = [] ∧ ∀ t ∈ ms.getLast?, t.isLayout = true ∨ t.kind = .rightParen)
    (hus : AreKeywordParameter name letters k us) (hkeyword : cl.IsKeyword name letters)
    (hk : Number.minInt ≤ k ∧ k ≤ Number.maxInt)
    (hfresh : (Parameter.ofValues cl [.int k]).key ∉ c.parameters.keys) :
    ∃ c', (Cursor.of (.of (ms ++ (ks ++ us)))).parse .cell = .ok (.cell c') ∧
      c.IsGrown (.ofValues cl [.int k]) c' := by
  obtain ⟨head, ps, c₁, hread, hnil, hkeys, hrecord⟩ := exists_hasRead_of_parse hlex hparse
  obtain rfl := Record.cell.inj hrecord
  obtain ⟨p, hgives, hp⟩ := gives_parameter hus (fun l hl ↦ (hkeyword.particles l hl).2) hk
  have hpkey : p.key = (Parameter.ofValues cl [.int k]).key :=
    Parameter.key_eq_of_isKeywordParameter hkeyword hp _
  have hopens : opensParameter us = true := by
    obtain ⟨word, qs, equals, number, rfl, hword, -⟩ := hus.exists_tokens
    simp [opensParameter, isMark, isWord, hword, TokenKind.isWord]
  have hlike : (Seam.beforeParameter hus).Like (ms ++ ls) (ms ++ (ks ++ us)) := by
    refine ⟨ms, ms, ls, ks, by
      simp [Seam.beforeParameter], rfl, List.forall₂_same.mpr fun _ _ ↦ ⟨rfl, rfl⟩, hls, hks, ?_⟩
    by_cases hksNil : ks = []
    · left
      intro t ht
      obtain ⟨kind, text, span⟩ := t
      rcases (hedge hksNil).2 _ ht with hlayout | hparen
      · change kind.isLayout = true at hlayout
        cases kind <;> first | rfl | cases hlayout
      · obtain rfl : kind = .rightParen := hparen
        rfl
    · refine .inr ⟨?_, isApart_of_isLayout hks hksNil us⟩
      cases ls with
      | nil => exact Seam.isApart_nil
      | cons l ls => exact isApart_of_isLayout hls (List.cons_ne_nil _ _) _
  have hfreshKeys : ((ps ++ [p]).map Parameter.key).Nodup := by
    rw [List.map_append, List.map_singleton, List.nodup_append]
    refine ⟨hkeys, List.nodup_singleton _, fun key hkey key' hkey' ↦ ?_⟩
    obtain rfl := List.mem_singleton.mp hkey'
    rintro rfl
    refine hfresh ?_
    rw [hpkey, (sameParameters_closeAll ps).keys_eq] at hkey
    exact hkey
  obtain ⟨r', ps', hsame, hheading, hparse'⟩ := hread.parse_spliced hlike hnil (fun d hd _ _ _ ↦ by
    obtain ⟨d', hd', hrest, -⟩ := hgives d hd
    have hstarts : opensParameter d.rest = true := by
      rw [hd]
      exact hopens
    exact ⟨[p], d', .step hstarts hd' .stop, .cons rfl .nil, hrest⟩) hfreshKeys
  obtain ⟨qs, q, rfl, hqs, hq⟩ := SameParameters.exists_concat hsame
  refine ⟨_, hparse', ⟨hheading.number, hheading.material, hheading.density, hheading.geometry⟩,
    Parameters.mapLast Parameter.closed (Parameters.closeAll qs), q,
    Parameters.closeAll_concat qs q,
    hqs.closeAll.mapLast_closed, (Parameter.key_eq_of_bare hq).symm.trans hpkey, ?_, ?_⟩
  · have hseparator := congrArg (fun p : Parameter ↦ p.separator.isSome) hq
    have hequals := hp.hasEquals
    simp only [Parameter.bare, Option.isSome_map] at hseparator
    rw [← hseparator]
    unfold Parameter.hasEquals at hequals
    split at hequals
    · next heq => rw [heq]; rfl
    · cases hequals
  · have hvalues := congrArg (fun p : Parameter ↦ p.values.values) hq
    simp only [Parameter.bare, FieldList.values_bare] at hvalues
    rw [← hvalues, hp.values]
    rfl

end Parsing

/-! ## Cards that go on -/

/-- A text can be put behind a card.  The card alone is one record, up to spaces at its end; no
comment is open there; and a space, a closing parenthesis or `&` sets the two apart within the
columns. -/
structure Card.TakesMore (options : ReadOptions) (files : Files.Source) (path : String)
    (width : Nat) (card : Card) (ls : List String) (line : String) (n : Nat)
    (room extra : List Char) : Prop where
  lines_eq : card.lines = ls ++ [Line.spaced line n]
  exists_deck : ∃ deck,
    RawDeck.ofText options files path (soleText ("\n".intercalate (ls ++ [line]))) = .ok deck ∧
    deck.cards.map Card.shape = [(Block.cell, ls ++ [line])]
  code : Line.isComment line = false
  unmarked : '$' ∉ line.toList
  spaces : ∀ b ∈ room, b = ' '
  apart : ∃ b ∈ ((Line.spaced line n).toList ++ room).getLast?, b = ' ' ∨ b = ')' ∨ b = '&'
  fits : ((Line.spaced line n).toList ++ (room ++ extra)).length ≤ width
  short : (card.text.toList ++ (room ++ extra)).length ≤ Limits.tokens

namespace Card.TakesMore

variable {options : ReadOptions} {files : Files.Source} {path : String} {card : Card}
  {room extra : List Char} (h : card.TakesMore options files path width ls line n room extra)
include h

theorem apart_line : Apart line.toList (List.replicate n ' ' ++ (room ++ extra)) := by
  cases n with
  | succ n => exact .inl rfl
  | zero =>
    cases room with
    | cons b room =>
      obtain rfl := h.spaces b List.mem_cons_self
      exact .inl rfl
    | nil =>
      obtain ⟨b, hb, hbreak⟩ := h.apart
      right
      intro d hd
      have hlast : d ∈ ((Line.spaced line 0).toList ++ []).getLast? := by
        simpa [Line.spaced] using hd
      obtain rfl : b = d := Option.some.inj (hb.symm.trans hlast)
      rcases hbreak with rfl | rfl | rfl <;> decide

theorem isSole (hwidth : options.version.width = .ok width) (hread : card.isRead = false) :
    IsSole options width (ls ++ [line]) := by
  obtain ⟨deck, hdeck, hcards⟩ := h.exists_deck
  rw [soleText_eq (by simp)] at hdeck
  exact isSole_of_card hwidth h.lines_eq hread hdeck hcards

variable (hwidth : options.version.width = .ok width) (hread : card.isRead = false)
include hwidth hread

/-- The record goes on with the text, and nothing else is read. -/
theorem exists_ofText (hplain : ∀ c ∈ extra, c ≠ '\n' ∧ c ≠ '\t' ∧ c ≠ '#' ∧ Line.isAscii c = true)
    (hsolid : ∃ c ∈ extra.getLast?, Text.isBlank c = false ∧ c ≠ '&') :
    ∃ deck card', RawDeck.ofText options files path
        (soleText (card.text ++ String.ofList (room ++ extra))) = .ok deck ∧
      deck.cards = [card'] ∧ card'.block = .cell ∧
      card'.text = card.text ++ String.ofList (room ++ extra) ∧ card'.isRead = false := by
  have hgoes : GoesOn width line (List.replicate n ' ' ++ (room ++ extra)) := by
    refine ⟨h.code, h.apart_line, fun c hc ↦ ?_, ?_, ?_⟩
    · have hspace : ∀ c, c = ' ' → c ≠ '\n' ∧ c ≠ '\t' ∧ c ≠ '#' ∧ Line.isAscii c = true := by
        rintro _ rfl
        decide
      rcases List.mem_append.mp hc with hc | hc
      · exact hspace c (List.eq_of_mem_replicate hc)
      · rcases List.mem_append.mp hc with hc | hc
        · exact hspace c (h.spaces c hc)
        · exact hplain c hc
    · obtain ⟨c, hc, hsolid⟩ := hsolid
      refine ⟨c, ?_, hsolid⟩
      rw [List.getLast?_append, List.getLast?_append, hc]
      rfl
    · have hfits := h.fits
      rw [Line.spaced, String.toList_ofList, List.append_assoc, List.length_append] at hfits
      exact hfits
  obtain ⟨new, deck, card', hne, hnew, hdeck, hcard⟩ :=
    (h.isSole hwidth hread).exists_ofText_concat hwidth h.lines_eq hread hgoes files path .cell
  rw [← soleText_eq hne, hnew] at hdeck
  exact ⟨deck, card', hdeck, hcard⟩

/-- The tokens of the card stay, up to the blanks at its end. -/
theorem exists_tokenize {ts : List Token} {Q : List Token → Prop}
    (hts : tokenize .cell card.text = .ok ts) (hextra : CutsAs extra Q)
    (hsolid : StartsSolid extra) : ∃ ms gap ks us, ts = ms ++ gap ∧
      tokenize .cell (card.text ++ String.ofList (room ++ extra)) = .ok (ms ++ (ks ++ us)) ∧
      (∀ t ∈ gap, t.isLayout = true) ∧ (∀ t ∈ ks, t.isLayout = true) ∧
      (ks = [] → gap = [] ∧ ∀ t ∈ ms.getLast?, t.isLayout = true ∨ t.kind = .rightParen) ∧
      Q us := by
  have hsole := h.isSole hwidth hread
  obtain ⟨before, hbefore, hsource⟩ := exists_intercalate_concat ls
  have htext : card.text.toList = before ++ (Line.spaced line n).toList := by
    rw [Card.text, h.lines_eq, hsource]
  have hnone {d : Char} (hd : d ≠ ' ') (hline : d ∉ line.toList) :
      d ∉ (Line.spaced line n).toList := by
    rw [Line.spaced, String.toList_ofList, List.mem_append, not_or]
    exact ⟨hline, fun hmem ↦ hd (List.eq_of_mem_replicate hmem)⟩
  have hcuts := (tokenize_eq_ok_iff.mp hts).1
  rw [htext] at hcuts
  have hlast : ∀ t ∈ ts.getLast?, t.kind.isComment = false := by
    refine isComment_of_mem_getLast? hcuts hbefore
      (hnone (by decide) (hsole.lines.plain line (by simp)).one_line)
        (hnone (by decide) h.unmarked) ?_
    rw [String.ofList_toList, isComment_spaced, h.code]
  have hbreak : ∀ b ∈ (card.text.toList ++ room).getLast?, b ∈ breaks := by
    obtain ⟨d, hd, hbreak⟩ := h.apart
    intro b hb
    rw [htext, List.append_assoc, List.getLast?_append, hd] at hb
    obtain rfl : d = b := Option.some.inj hb
    rcases hbreak with rfl | rfl | rfl <;> decide
  have htokens :=
    exists_tokenize_append hts hlast (fun b hb ↦ by rw [h.spaces b hb]; rfl)
      hbreak hextra hsolid h.short
  rwa [String.ofList_append, String.ofList_toList] at htokens

end Card.TakesMore

namespace CellRecord

variable {options : ReadOptions} {files : Files.Source} {path : String} {card : Card}
  {room : List Char} {cl : Classifier} {name : String} {letters : List Char}
    {k : Int} {c : CellRecord}

/-- A cell that has been read has no parameter under a key that none of its parameters has. -/
theorem exists_insert {ts : List Token} {p : Parameter} (hlex : ∀ t ∈ ts, Spells t.kind t.text)
    (hparse : (Cursor.of (.of ts)).parse .cell = .ok (.cell c))
    (hfresh : p.key ∉ c.parameters.keys) : ∃ ps, c.parameters.insert p = .ok ps := by
  obtain ⟨head, ps, -, -, -, -, hrecord⟩ := exists_hasRead_of_parse hlex hparse
  obtain rfl := Record.cell.inj hrecord
  refine ⟨_, Parameters.insert_of fun hmem ↦ hfresh ?_⟩
  rw [(sameParameters_closeAll ps).keys_eq] at hmem
  exact hmem

/-- A parameter with a fresh keyword and an integer takes effect: the text with it is read as one
record, and that is the cell with the parameter behind its others. -/
theorem insert_takesEffect (hwidth : options.version.width = .ok width)
    (h : card.parse = .ok (.cell c)) (t : Tolerance)
    (hroom : (c.withRoom.render t).text = card.text ++ String.ofList room)
    (hmore : card.TakesMore options files path width ls line n room (keywordSource name letters k))
    (hkeyword : cl.IsKeyword name letters) (hk : Number.minInt ≤ k ∧ k ≤ Number.maxInt)
    (hfresh : (Parameter.ofValues cl [.int k]).key ∉ c.parameters.keys) :
    ∃ ps, c.parameters.insert (.ofValues cl [.int k]) = .ok ps ∧
      ∃ deck card', RawDeck.ofText options files path
        (soleText ((c.setParameters ps).render t).text) = .ok deck ∧ deck.cards =
        [card'] ∧ card'.text = ((c.setParameters ps).render t).text ∧
        ∃ c', card'.parse = .ok (.cell c') ∧ c.IsGrown (.ofValues cl [.int k]) c' := by
  obtain ⟨-, hread, ts, hts, hparse⟩ := Card.parse_eq_cell_iff.mp h
  have hlex := spells_of_tokensFrom hts
  obtain ⟨ps, hps⟩ := exists_insert hlex hparse hfresh
  have htext : ((c.setParameters ps).render t).text =
      card.text ++ String.ofList (room ++ keywordSource name letters k) := by
    rw [text_insert hps, hroom, Parameter.text_ofValues hkeyword,
      String.append_assoc, ← String.ofList_append]
  have hkeywordAlpha : ∀ a ∈ letters, a.isAlpha = true := fun a ha ↦ (hkeyword.particles a ha).1
  have hmem {d : Char} (hd : d ∈ keywordSource name letters k) (q : Char → Bool)
      (hq : (alphabet ++ joints ++ integerStarts).all (!q ·) = true) : q d = false :=
    eq_false_of_mem_keywordSource hkeyword.keyword hkeywordAlpha hd q hq
  obtain ⟨deck, card', hdeck, hcards, hblock', htext', hread'⟩ := hmore.exists_ofText hwidth hread
    (fun d hd ↦
      ⟨by
        simpa using hmem hd (· == '\n') (by decide), by simpa using hmem hd (· == '\t') (by decide),
      by
        simpa using hmem hd (· == '#') (by decide), by
          simpa using hmem hd (!Line.isAscii ·) (by decide)⟩)
    (by
      obtain ⟨d, hd, -⟩ := exists_getLast?_keywordSource name letters k
      have hin := List.mem_of_getLast? hd
      exact ⟨d, hd, hmem hin Text.isBlank (by decide), by
        simpa using hmem hin (· == '&') (by decide)⟩)
  obtain ⟨ms, gap, ks, us, rfl, hus, hgap, hks, hedge, hparameter⟩ :=
    hmore.exists_tokenize hwidth hread hts
      (cutsAs_keywordParameter hkeyword.keyword hkeyword.particles hk)
        (startsSolid_keywordSource hkeyword.keyword _ _)
  obtain ⟨c', hparse', hgrown⟩ :=
    exists_parse_append hlex hparse hgap hks hedge hparameter hkeyword hk hfresh
  refine ⟨ps, hps, deck, card', htext ▸ hdeck, hcards, htext'.trans htext.symm, c', ?_, hgrown⟩
  exact Card.parse_eq_cell_iff.mpr ⟨hblock', hread', _, htext' ▸ hus, hparse'⟩

/-- The classifier `imp:n`, as it is spelled. -/
def neutronImportance : Classifier :=
  ⟨none, wordField "imp", none, some ⟨some ":n", ['N'], ['N'], false⟩, none⟩

theorem isKeyword_neutronImportance : neutronImportance.IsKeyword "imp" ['n'] where
  keyword := by decide +kernel
  particles := List.forall_mem_singleton.mpr (by decide +kernel)
  word := rfl
  number := rfl
  symbols := rfl
  text_eq t := by
    change "imp" ++ ":n" ++ "" = _
    decide +kernel

/-- Behind a parameter on a line of its own there is room for another one. -/
theorem insert_takesEffect_behind_parameter :
    ∃ (options : ReadOptions) (files : Files.Source) (card : Card) (c : CellRecord)
      (ps : Parameters) (deck : RawDeck) (card' : Card) (c' : CellRecord),
    card.lines = ["1 0 -1", "     u=2"] ∧ card.parse = .ok (.cell c) ∧
      c.parameters.insert (.ofValues neutronImportance [.int 1]) = .ok ps ∧
      RawDeck.ofText options files "deck" (soleText ((c.setParameters ps).render .standard).text) =
      .ok deck ∧ deck.cards = [card'] ∧ card'.parse = .ok (.cell c') ∧
      c.IsGrown (.ofValues neutronImportance [.int 1]) c' := by
  let card : Card := ⟨.cell, ["1 0 -1", "     u=2"], "deck", 2, 0⟩
  let options : ReadOptions := ⟨.standard, true⟩
  let files : Files.Source := fun _ ↦ .error .notFound
  have hwidth : options.version.width = .ok 128 := by rfl
  obtain ⟨c, hc, hproperties⟩ := Card.exists_cell card
    (fun c ↦ (c.withRoom.render .standard).text == card.text ++ " " && c.parameters.keys == ["u"])
      (by decide +kernel)
  simp only [Bool.and_eq_true, beq_iff_eq] at hproperties
  have hkey : (Parameter.ofValues neutronImportance [.int 1]).key = "imp:n" := by decide +kernel
  have hdeck : RawDeck.ofText options files "deck"
    (soleText ("\n".intercalate (["1 0 -1"] ++ ["     u=2"]))) =
      .ok ⟨none, some "t", [card], [], false⟩ := by decide +kernel
  have hmore : card.TakesMore options files "deck" 128 ["1 0 -1"] "     u=2" 0 [' ']
      (keywordSource "imp" ['n'] 1) := by
    refine ⟨by decide +kernel, ⟨_, hdeck, by decide +kernel⟩, by decide +kernel, by decide +kernel,
      List.forall_mem_singleton.mpr rfl,
      ⟨' ', by decide +kernel, .inl rfl⟩, by decide +kernel, by decide +kernel⟩
  obtain ⟨ps, hps, deck, card', hdeck', hcards, -, c', hc', hgrown⟩ :=
    insert_takesEffect hwidth hc .standard hproperties.1 hmore isKeyword_neutronImportance
      (by decide) (by simp [hproperties.2, hkey])
  exact ⟨options, files, card, c, ps, deck, card', c', rfl, hc, hps, hdeck', hcards, hc', hgrown⟩

/-- A first parameter is put right behind the geometry, and the two are one word then. -/
theorem not_insert_takesEffect :
    ∃ (options : ReadOptions) (files : Files.Source) (card : Card) (c : CellRecord)
      (ps : Parameters) (deck : RawDeck) (card' : Card) (errors : List SyntaxError),
    card.parse = .ok (.cell c) ∧
      (Parameter.ofValues neutronImportance [.int 1]).key ∉ c.parameters.keys ∧
      c.parameters.insert (.ofValues neutronImportance [.int 1]) = .ok ps ∧
      RawDeck.ofText options files "deck" (soleText (Record.cell (c.setParameters ps)).text) =
      .ok deck ∧ deck.cards = [card'] ∧ card'.parse = .error errors := by
  let card : Card := ⟨.cell, ["1 0 -1"], "deck", 2, 0⟩
  let card' : Card := ⟨.cell, ["1 0 -1imp:n=1"], "deck", 2, 0⟩
  obtain ⟨c, hc, hproperties⟩ := Card.exists_cell card
    (fun c ↦ c.parameters.keys.isEmpty &&
    (c.parameters.insert (.ofValues neutronImportance [.int 1])).toOption.any
      fun ps ↦ (Record.cell (c.setParameters ps)).text == card'.text) (by decide +kernel)
  rw [Bool.and_eq_true, List.isEmpty_iff] at hproperties
  obtain ⟨hkeys, hinsert⟩ := hproperties
  obtain ⟨ps, hps, hequal⟩ := Except.exists_of_any hinsert
  have htext : (Record.cell (c.setParameters ps)).text = card'.text := eq_of_beq hequal
  have hdeck : RawDeck.ofText ⟨.standard, true⟩
    (fun _ ↦ .error .notFound) "deck" (soleText card'.text) =
      .ok ⟨none, some "t", [card'], [], false⟩ := by decide +kernel
  have hrejected : card'.parse.toOption.isNone = true := by decide +kernel
  obtain ⟨errors, herrors⟩ := Except.toOption_eq_none.mp (Option.isNone_iff_eq_none.mp hrejected)
  exact ⟨_, _, card, c, ps, _, card', errors, hc, by simp [hkeys], hps, htext ▸ hdeck, rfl, herrors⟩

end CellRecord

end TransportDeck
