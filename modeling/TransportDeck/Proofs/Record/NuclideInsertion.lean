import TransportDeck.Proofs.Deck.SoleRecords
import TransportDeck.Proofs.Grammar.MaterialReading
import TransportDeck.Proofs.Node.Additions
import TransportDeck.Proofs.Record.Marks
import TransportDeck.Proofs.Token.Nuclides

/-!
# Added nuclides

A nuclide that is added to a material is written behind the last amount.  The record stays one and
is read with the nuclide, if it has no parameters behind and no comment is open at its end.
-/

namespace TransportDeck

open Text Reading Lexer Production

/-! ## Room behind the last amount -/

namespace Layout

theorem isEmpty_foldl_pushToken {ts : List Token} (hne : ts ≠ []) (htext : ∀ t ∈ ts, t.text ≠ "") :
    (ts.foldl pushToken .empty).isEmpty = false := by
  rw [← Bool.not_eq_true]
  intro hempty
  obtain ⟨t, us, rfl⟩ := List.exists_cons_of_ne_nil hne
  have hnil : ((t :: us).foldl pushToken .empty).text = "" := by
    rw [text, List.isEmpty_iff.mp hempty]
    rfl
  rw [text_foldl_pushToken, text_empty, String.empty_append, textOf_cons] at hnil
  exact htext t List.mem_cons_self (String.append_eq_empty_iff.mp hnil).1

end Layout

namespace Production

variable {n : Nuclide} {ns : List Nuclide} {ts ks : List Token}

/-- The layout behind an amount is what stands behind its number. -/
theorem SpellsPair.exists_behind (h : SpellsPair ts n) :
    ∃ front u ms, ts = front ++ u :: ms ∧ u.isLayout = false ∧
      (∀ m ∈ ms, m.isLayout = true) ∧ n.amount.layout = Layout.ofTokens? ms := by
  obtain ⟨t, ls, u, ms, amount, rfl, -, -, hu, -, hms, rfl⟩ := h.exists_tokens
  refine ⟨t :: ls, u, ms, rfl, Token.isLayout_of_isNumber hu, hms, ?_⟩
  unfold Nuclide.of Field.asSignedFraction Field.splitSign
  split <;> rfl

/-- Behind a number a blank makes room, and behind layout nothing is needed. -/
theorem SpellPairs.room_cases {ns : Nuclides} (h : SpellPairs ts ns.pairs) (hne : ns.pairs ≠ [])
    (htext : ∀ t ∈ ts, t.text ≠ "") (hclosed : ∀ l ∈ ns.trailing?, l.hasOpenComment = false) :
    (ns.room = " " ∧ ∀ t ∈ ts.getLast?, t.isLayout = false) ∨
      (ns.room = "" ∧ ∀ t ∈ ts.getLast?, t.isLayout = true ∧ t.kind.isComment = false) := by
  obtain ⟨pairs⟩ := ns
  obtain ⟨init, n, rfl⟩ := (List.eq_nil_or_concat' pairs).resolve_left hne
  obtain ⟨us, vs, rfl, -, hlast⟩ := SpellPairs.exists_last h
  obtain ⟨front, u, ms, rfl, hu, hms, hlayout⟩ := hlast.exists_behind
  have htrailing : (Nuclides.trailing? ⟨init ++ [n]⟩) = Layout.ofTokens? ms := by
    rw [Nuclides.trailing?, List.getLast?_concat, ← hlayout]
    rfl
  rw [htrailing] at hclosed
  have hcomment := Layout.isComment_of_closed hclosed
  rw [Nuclides.room, htrailing]
  rcases List.eq_nil_or_concat' ms with rfl | ⟨ms, m, rfl⟩
  · refine .inl ⟨rfl, fun t ht ↦ ?_⟩
    obtain rfl : u = t := by simpa using ht
    exact hu
  · have hne : (ms ++ [m]).isEmpty = false := by simp
    rw [Layout.ofTokens?, hne, if_neg Bool.false_ne_true] at hclosed ⊢
    have hopen := hclosed _ rfl
    have hroom : ((ms ++ [m]).foldl Layout.pushToken .empty).isEmpty = false :=
      Layout.isEmpty_foldl_pushToken (by simp) fun t ht ↦ htext t (by simp at ht ⊢; tauto)
    refine .inr ⟨?_, fun t ht ↦ ?_⟩
    · rw [Option.getD_some, Layout.room, hroom, hopen]
      rfl
    · have hconcat : us ++ (front ++ u :: (ms ++ [m])) = us ++ front ++ u :: ms ++ [m] := by simp
      rw [hconcat, List.getLast?_concat] at ht
      obtain rfl : m = t := Option.some.inj ht
      exact ⟨hms m (by simp), hcomment m (by simp)⟩

/-! ## More pairs -/

/-- Layout behind a pair belongs to it. -/
theorem SpellsPair.exists_append (h : SpellsPair ts n) (hks : ∀ t ∈ ks, t.isLayout = true) :
    ∃ m, SpellsPair (ts ++ ks) m ∧ m.entry = n.entry := by
  obtain ⟨t, ls, u, ms, amount, rfl, ht, hls, hu, hamount, hms, rfl⟩ := h.exists_tokens
  have hall : ∀ m ∈ ms ++ ks, m.isLayout = true := List.forall_mem_append.mpr ⟨hms, hks⟩
  refine ⟨_, ⟨t, ls, u, ms ++ ks, amount, by simp, ht, hls, hu, hamount, hall, rfl⟩, ?_⟩
  unfold Nuclide.entry Nuclide.fraction Nuclide.byWeight Nuclide.of
    Field.asSignedFraction Field.splitSign
  obtain ⟨token, value, asRead, kind, layout, flag, negative, neverPadded⟩ := amount
  cases value <;> rfl

theorem SpellPairs.exists_append (h : SpellPairs ts ns) (hne : ns ≠ [])
    (hks : ∀ t ∈ ks, t.isLayout = true) :
    ∃ ms, SpellPairs (ts ++ ks) ms ∧ ms.map Nuclide.entry = ns.map Nuclide.entry := by
  obtain ⟨init, n, rfl⟩ := (List.eq_nil_or_concat' ns).resolve_left hne
  obtain ⟨us, vs, rfl, hinit, hlast⟩ := SpellPairs.exists_last h
  obtain ⟨m, hm, hentry⟩ := hlast.exists_append hks
  refine ⟨init ++ [m], ?_, by simp [hentry]⟩
  rw [List.append_assoc]
  exact hinit.append (.of_pair hm)

/-- The tokens of a nuclide with the amount one are read as that. -/
theorem exists_spellsPair {zaid : String} (h : ArePair zaid ts) :
    ∃ n, SpellsPair ts n ∧ n.entry = (zaid, 1.0, false) := by
  obtain ⟨z, space, one, rfl, hz, rfl, hspace, hone, htext⟩ := h.exists_tokens
  have hamount : Field.parse? one.text .real none =
      some ⟨some "1", some (.real 1), some (.real 1), .real, none,
      ⟨false, false⟩, false, false⟩ := by
    rw [htext]
    rfl
  refine ⟨_, ⟨z, [space], one, [], _, rfl, ?_, ?_, hone, hamount, by simp, rfl⟩, ?_⟩
  · rw [startsNuclide, hz]
    rfl
  · exact List.forall_mem_singleton.mpr (by rw [Token.isLayout, hspace]; rfl)
  · rfl

/-- A material that has been read is read with another pair behind it, and layout between the
two. -/
theorem exists_parse_add {d : DataRecord} {ns : Nuclides} (hlex : ∀ t ∈ ts, Spells t.kind t.text)
    (htext : ∀ t ∈ ts, t.text ≠ "") (h : (Cursor.of (.of ts)).parse .data = .ok (.data d))
    (hbody : d.body = .nuclides ns) (hnone : d.parameters.params = [])
    (hclosed : ∀ l ∈ ns.trailing?, l.hasOpenComment = false) :
    d.parameters = .empty ∧ ns.pairs ≠ [] ∧
      ((ns.room = " " ∧ ∀ t ∈ ts.getLast?, t.isLayout = false) ∨
        (ns.room = "" ∧ ∀ t ∈ ts.getLast?, t.isLayout = true ∧ t.kind.isComment = false)) ∧
      ∀ {zaid ks vs}, (∀ t ∈ ks, t.isLayout = true) → ArePair zaid vs → ∃ ms : Nuclides,
        (Cursor.of (.of (ts ++ (ks ++ vs)))).parse .data =
        .ok (.data { d with body := .nuclides ms }) ∧
          ms.pairs.map Nuclide.entry = ns.pairs.map Nuclide.entry ++ [(zaid, 1.0, false)] := by
  obtain ⟨-, c', hrun, herrors⟩ := Cursor.parse_eq_ok_iff.mp h
  obtain ⟨d', c'', hdata, ⟨⟩⟩ := run_bind_ok hrun
  have hlexed : (Cursor.of (.of ts)).IsLexed := hlex
  obtain ⟨front, us, ws, hreading⟩ := exists_materialReading hlexed hdata herrors hbody
  have hsplit : ts = front ++ (us ++ ws) := hreading.split
  obtain rfl : ws = [] :=
    eq_nil_of_readAs hreading.readAs hnone fun w hw ↦ htext w (by rw [hsplit]; simp [hw])
  obtain rfl : ts = front ++ us := by rwa [List.append_nil] at hsplit
  have hpairs := hreading.spells
  have hus : us ≠ [] := hpairs.ne_nil hreading.nonempty
  have hcases :=
    hpairs.room_cases hreading.nonempty (fun u hu ↦ htext u (List.mem_append_right _ hu)) hclosed
  rw [← List.getLast?_append_of_ne_nil front hus] at hcases
  refine ⟨hreading.ending.eq_empty, hreading.nonempty, hcases, fun {zaid ks vs} hks hvs ↦ ?_⟩
  -- The tokens behind the front spell the pairs, the last one with more layout, and the new pair.
  obtain ⟨ms, hms, hentries⟩ := hpairs.exists_append hreading.nonempty hks
  obtain ⟨m, hm, hentry⟩ := exists_spellsPair hvs
  have hspell : SpellPairs (us ++ ks ++ vs) (ms ++ [m]) := hms.append (.of_pair hm)
  have hhead : (us ++ ks ++ vs).head? = us.head? := by simp [List.head?_append_of_ne_nil _ hus]
  have hagain := hreading.again _ _ [] hspell hhead .nil nofun
  rw [List.append_nil] at hagain
  obtain ⟨d', c₁, hrun', rfl, -, herrors'⟩ :=
    hagain (Cursor.of (.of (front ++ (us ++ ks ++ vs)))) rfl rfl
  have hrecord : (Production.record .data).run (Cursor.of (.of (front ++ (us ++ ks ++ vs)))) = _ :=
    run_bind_of_ok hrun'
  have hsolid : (Cursor.of (.of (front ++ (us ++ ks ++ vs)))).stream.onlyLayoutLeft = false := by
    obtain ⟨z, space, one, rfl, hz, -⟩ := hvs.exists_tokens
    exact TokenStream.onlyLayoutLeft_of ⟨z, by simp, Token.isLayout_of_kind hz rfl⟩
  have hparse := Cursor.parse_eq_ok_iff.mpr ⟨hsolid, c₁, hrecord, herrors'⟩
  rw [List.append_assoc, ← List.append_assoc front] at hparse
  exact ⟨⟨ms ++ [m]⟩, hparse, by rw [List.map_append, hentries, List.map_singleton, hentry]⟩

end Production

/-! ## Cards -/

/-- A nuclide can be added to the material of a card.  The card alone is one record, up to spaces at
its end; no comment is open there; and what is written behind the last line stays within the
columns. -/
structure Card.TakesNuclide (options : ReadOptions) (files : Files.Source) (path : String)
    (width : Nat) (card : Card) (ns : Nuclides) (zaid : String) (ls : List String)
    (line : String) (n : Nat) : Prop where
  lines_eq : card.lines = ls ++ [Line.spaced line n]
  exists_deck : ∃ deck,
    RawDeck.ofText options files path (soleDataText ("\n".intercalate (ls ++ [line]))) = .ok deck ∧
    deck.cards.map Card.shape = [(Block.data, ls ++ [line])]
  code : Line.isComment line = false
  closed : ∀ l ∈ ns.trailing?, l.hasOpenComment = false
  fits : (Line.spaced line n).length + (ns.room ++ (zaid ++ " 1")).length ≤ width
  short : ∀ ts, tokenize .data card.text = .ok ts → ts.length + 4 ≤ Limits.tokens

/-- Letters and digits are no marks. -/
theorem plain_of_isAlphanum {c : Char} (h : c.isAlphanum = true) :
    c ≠ '\n' ∧ c ≠ '\t' ∧ c ≠ '#' ∧ Line.isAscii c = true := by
  refine ⟨?_, ?_, ?_, ?_⟩
  · rintro rfl
    cases h
  · rintro rfl
    cases h
  · rintro rfl
    cases h
  · have hle : c.toNat ≤ 122 := by
      simp only [Char.isAlphanum, Char.isAlpha, Char.isUpper, Char.isLower, Char.isDigit,
        Bool.or_eq_true, Bool.and_eq_true, decide_eq_true_eq, ge_iff_le,
        UInt32.le_iff_toNat_le] at h
      simp at h
      omega
    rw [Line.isAscii, decide_eq_true_eq]
    omega

namespace DataRecord

variable {options : ReadOptions} {files : Files.Source} {path : String} {width n : Nat}
  {card : Card} {d : DataRecord} {ns : Nuclides} {zaid : String} {span : Span}
    {ls : List String} {line : String}

/-- The tokens of the card stay when a nuclide is written behind them. -/
theorem exists_tokenize_add {ts : List Token} (hts : tokenize .data card.text = .ok ts)
    (hzaid : tokenize .data zaid = .ok [⟨.nuclide, zaid, span⟩])
    (hshort : ts.length + 4 ≤ Limits.tokens)
    (hroom : (ns.room = " " ∧ ∀ t ∈ ts.getLast?, t.isLayout = false) ∨
      (ns.room = "" ∧ ∀ t ∈ ts.getLast?, t.isLayout = true ∧ t.kind.isComment = false)) :
    Apart card.text.toList (ns.room ++ (zaid ++ " 1")).toList ∧
      ∃ ks us, tokenize .data (card.text ++ (ns.room ++ (zaid ++ " 1"))) = .ok (ts ++ (ks ++ us)) ∧
        (∀ t ∈ ks, t.isLayout = true) ∧ ArePair zaid us := by
  obtain ⟨hnuclide, hbytes⟩ := nuclide?_of_tokenize hzaid
  have hcuts := (tokenize_eq_ok_iff.mp hts).1
  have hsource : card.text.toList = (textOf ts).toList := by simpa using hcuts.eq_append
  have hsolid : StartsSolid (zaid ++ " 1").toList := by
    rw [String.toList_append]
    exact startsSolid_of_nuclide? hnuclide _
  have hblank : ns.room = "" ∨ ns.room = " " := hroom.elim (fun h ↦ .inr h.1) fun h ↦ .inl h.1
  have hapart : Apart card.text.toList (ns.room ++ (zaid ++ " 1")).toList := by
    rcases hroom with ⟨hroom, -⟩ | ⟨-, hlast⟩
    · rw [hroom, String.toList_append]
      exact .inl rfl
    · right
      rw [hsource]
      cases hts : ts.getLast? with
      | none =>
        rw [List.getLast?_eq_none_iff.mp hts]
        simp
      | some t =>
        obtain ⟨hlayout, hcomment⟩ := hlast t hts
        exact hcuts.break_of_getLast? (by decide) hts hlayout hcomment
  have hbounds : ∀ t ∈ ts.getLast?, Bounds t.kind (ns.room ++ (zaid ++ " 1")).toList :=
      fun t ht ↦ by
    rcases hroom with ⟨-, hlast⟩ | ⟨hroom, hlast⟩
    · have hcomment : t.kind.isComment = false := TokenKind.isComment_of_isLayout (hlast t ht)
      refine ⟨fun hkind ↦ absurd hkind (by simp [hcomment]), fun hspace ↦ ?_⟩
      have hsolid := hlast t ht
      rw [Token.isLayout, hspace] at hsolid
      cases hsolid
    · refine ⟨fun hcomment ↦ absurd hcomment (by simp [(hlast t ht).2]), fun _ ↦ ?_⟩
      rw [hroom, String.empty_append]
      exact hsolid
  refine ⟨hapart, ?_⟩
  obtain ⟨_, htokens, ks, us, rfl, hks, hlength, hus⟩ :=
    exists_tokenize_concat (by decide) hts hapart hbounds
        (exists_cuts_room hblank hsolid (exists_cuts_pair hnuclide hbytes)) fun us hus ↦ by
      obtain ⟨ks, vs, rfl, -, hlength, hvs⟩ := hus
      obtain ⟨z, space, one, rfl, -⟩ := hvs.exists_tokens
      simp only [List.length_append, List.length_cons, List.length_nil]
      omega
  exact ⟨ks, us, htokens, hks, hus⟩

/-- The record goes on with the nuclide, and nothing else is read. -/
theorem exists_ofText_add (hwidth : options.version.width = .ok width) (hread : card.isRead = false)
    (h : card.TakesNuclide options files path width ns zaid ls line n)
    (hzaid : tokenize .data zaid = .ok [⟨.nuclide, zaid, span⟩])
    (hblank : ns.room = "" ∨ ns.room = " ")
    (hapart : Apart card.text.toList (ns.room ++ (zaid ++ " 1")).toList) :
    ∃ deck card', RawDeck.ofText options files path
        (soleDataText (card.text ++ (ns.room ++ (zaid ++ " 1")))) = .ok deck ∧
      deck.cards = [card'] ∧ card'.block = .data ∧
      card'.text = card.text ++ (ns.room ++ (zaid ++ " 1")) ∧
        card'.isRead = false := by
  obtain ⟨hnuclide, -⟩ := nuclide?_of_tokenize hzaid
  have hone {c : Char} (hc : c ∈ [' ', '1', '.']) : c ≠ '\n' ∧ c ≠ '\t' ∧ c ≠ '#' ∧
      Line.isAscii c = true := by
    fin_cases hc <;> decide
  have hgoes : GoesOn width line (List.replicate n ' ' ++ (ns.room ++ (zaid ++ " 1")).toList) := by
    refine ⟨h.code, ?_, fun c hc ↦ ?_, ⟨'1', ?_, by decide, by decide⟩, ?_⟩
    · cases n with
      | succ n => exact .inl rfl
      | zero =>
        obtain ⟨before, -, hsource⟩ := exists_intercalate_concat ls
        rw [Card.text, h.lines_eq, hsource, Line.spaced] at hapart
        simpa using hapart.of_append
    · simp only [String.toList_append, List.mem_append] at hc
      rcases hc with hc | hc | hc | hc
      · rw [List.eq_of_mem_replicate hc]
        exact hone (by decide)
      · rcases hblank with hroom | hroom <;> rw [hroom] at hc
        · cases hc
        · obtain rfl : c = ' ' := by simpa using hc
          exact hone (by decide)
      · rcases forall_mem_of_nuclide? hnuclide c hc with hc | rfl
        · exact plain_of_isAlphanum hc
        · exact hone (by decide)
      · obtain rfl | rfl : c = ' ' ∨ c = '1' := by simpa using hc
        · exact hone (by decide)
        · exact hone (by decide)
    · simp [List.getLast?_append]
    · have hfits := h.fits
      rw [← String.length_toList, ← String.length_toList, Line.spaced, String.toList_ofList,
        List.length_append] at hfits
      rw [List.length_append]
      omega
  obtain ⟨deck, hdeck, hcards⟩ := h.exists_deck
  rw [soleDataText_eq (by simp)] at hdeck
  obtain ⟨new, deck, card', hne, hnew, hdeck, hcard⟩ :=
    (isSole_of_card hwidth h.lines_eq hread hdeck hcards)
    |>.exists_ofText_concat hwidth h.lines_eq hread hgoes files path .data
  rw [← soleDataText_eq hne, hnew] at hdeck
  rw [String.ofList_toList] at hdeck hcard
  exact ⟨deck, card', hdeck, hcard⟩

/-- A nuclide that is added with the amount one takes effect: the text with it is read as one
record, and that is the material with the nuclide behind its others. -/
theorem add_takesEffect (hwidth : options.version.width = .ok width)
    (h : card.parse = .ok (.data d)) (hbody : d.body = .nuclides ns)
    (hnone : d.parameters.params = []) (hzaid : tokenize .data zaid = .ok [⟨.nuclide, zaid, span⟩])
    (htakes : card.TakesNuclide options files path width ns zaid ls line n) (t : Tolerance) :
    ∃ deck card' ms, RawDeck.ofText options files path
        (soleDataText (({ d with body := .nuclides (ns.add zaid 1.0 false) } : DataRecord).render
          t).text) = .ok deck ∧
      deck.cards = [card'] ∧
      card'.text =
      (({ d with body := .nuclides (ns.add zaid 1.0 false) } : DataRecord).render t).text ∧
      card'.parse = .ok (.data { d with body := .nuclides ms }) ∧ ms.pairs.map Nuclide.entry =
      ns.pairs.map Nuclide.entry ++ [(zaid, 1.0, false)] := by
  obtain ⟨ts, hts, hrecord⟩ := Card.exists_tokens_of_data h
  have htexts : ∀ u ∈ ts, u.text ≠ "" := fun u hu ↦ by
    simpa using (tokenize_eq_ok_iff.mp hts).1.partitions.nonempty u hu
  obtain ⟨hempty, hne, hcases, hmore⟩ :=
    exists_parse_add (spells_of_tokensFrom hts) htexts hrecord hbody hnone htakes.closed
  have hread : card.isRead = false := Card.isRead_of_data h
  obtain ⟨hapart, ks, vs, htokens, hks, hvs⟩ :=
    exists_tokenize_add hts hzaid (htakes.short _ hts) hcases
  obtain ⟨ms, hrecord', hentries⟩ := hmore hks hvs
  obtain ⟨deck, card', hdeck, hcards, hblock, htext, hread'⟩ :=
    exists_ofText_add hwidth hread htakes hzaid (hcases.elim (fun h ↦ .inr h.1) fun h ↦
      .inl h.1) hapart
  have hofCard : Grammar.ofCard card' = .data := by
    rw [Grammar.ofCard, hread', hblock]
    rfl
  have hparse' : card'.parse = .ok (.data { d with body := .nuclides ms }) :=
    Card.parse_of_tokens hofCard (htext ▸ htokens) hrecord'
  have hrender := text_add h hbody hempty hne zaid t
  rw [String.append_assoc] at hrender
  exact ⟨deck, card', ms, hrender.symm ▸ hdeck, hcards, htext.trans hrender.symm, hparse', hentries⟩

/-- What can be computed from the material that a card is holds of it. -/
theorem exists_material (card : Card) (p : DataRecord → Nuclides → Bool)
    (h : (card.parse.toOption.any fun r ↦ match r with
      | .data d => match d.body with
        | .nuclides ns => p d ns
        | .values _ => false
      | _ => false) = true) : ∃ d ns, card.parse = .ok (.data d) ∧
          d.body = .nuclides ns ∧ p d ns = true := by
  obtain ⟨r, hr, hp⟩ := Except.exists_of_any h
  cases r with
  | data d =>
    obtain ⟨leading, cl, keyword, body, ps⟩ := d
    cases body with
    | nuclides ns => exact ⟨_, ns, hr, rfl, hp⟩
    | values l => cases hp
  | cell | surface | read | verbatim => cases hp

theorem tokenize_oxygen :
    tokenize .data "8016.80c" = .ok [⟨.nuclide, "8016.80c", ⟨.start, ⟨8, 1, 9⟩⟩⟩] := by
  decide +kernel

/-- A material whose last amount stands on a line of its own takes another nuclide. -/
theorem add_takesEffect_behind_continuation :
    ∃ (options : ReadOptions) (files : Files.Source) (card : Card) (d : DataRecord) (ns : Nuclides)
      (deck : RawDeck) (card' : Card) (ms : Nuclides),
    card.lines = ["m1 1001.80c 2", "     6000.80c 1"] ∧ card.parse = .ok (.data d) ∧
      d.body = .nuclides ns ∧ RawDeck.ofText options files "deck" (soleDataText
        (({ d with body := .nuclides (ns.add "8016.80c" 1.0 false) } : DataRecord).render
          .standard).text) = .ok deck ∧
      deck.cards = [card'] ∧ card'.parse = .ok (.data { d with body := .nuclides ms }) ∧
      ms.pairs.map Nuclide.entry = ns.pairs.map Nuclide.entry ++ [("8016.80c", 1.0, false)] := by
  let card : Card := ⟨.data, ["m1 1001.80c 2", "     6000.80c 1"], "deck", 4, 0⟩
  let options : ReadOptions := ⟨.standard, true⟩
  let files : Files.Source := fun _ ↦ .error .notFound
  have hwidth : options.version.width = .ok 128 := by rfl
  obtain ⟨d, ns, hd, hbody, hproperties⟩ := exists_material card
    (fun d ns ↦ d.parameters.params.isEmpty && ns.trailing?.isNone && ns.room == " ")
      (by decide +kernel)
  simp only [Bool.and_eq_true, List.isEmpty_iff, Option.isNone_iff_eq_none,
    beq_iff_eq] at hproperties
  obtain ⟨⟨hnone, htrailing⟩, hroom⟩ := hproperties
  have hdeck : RawDeck.ofText options files "deck"
      (soleDataText ("\n".intercalate (["m1 1001.80c 2"] ++ ["     6000.80c 1"]))) =
        .ok ⟨none, some "t", [card], [], false⟩ := by decide +kernel
  have hshort : ((tokenize .data card.text).toOption.all fun ts ↦ ts.length + 4 ≤ Limits.tokens) =
      true := by
    decide +kernel
  have htakes : card.TakesNuclide options files "deck" 128 ns "8016.80c" ["m1 1001.80c 2"]
      "     6000.80c 1" 0 := by
    refine ⟨by
      decide +kernel,
        ⟨_, hdeck, by decide +kernel⟩, by decide +kernel, by simp [htrailing], ?_, fun ts hts ↦ ?_⟩
    · rw [hroom]
      decide +kernel
    · simpa [hts, Except.toOption] using hshort
  obtain ⟨deck, card', ms, hdeck', hcards, -, hcard', hentries⟩ :=
    add_takesEffect hwidth hd hbody hnone tokenize_oxygen htakes .standard
  exact ⟨options, files, card, d, ns, deck, card', ms, rfl, hd, hbody, hdeck',
    hcards, hcard', hentries⟩

/-- In front of a parameter the amount and the name of the parameter are one word, and the record is
refused. -/
theorem not_add_takesEffect :
    ∃ (options : ReadOptions) (files : Files.Source) (card : Card) (d : DataRecord) (ns : Nuclides)
      (span : Span) (deck : RawDeck) (card' : Card) (errors : List SyntaxError),
    card.lines = ["m1 1001.80c 2 nlib=80c"] ∧ card.parse = .ok (.data d) ∧ d.body = .nuclides ns ∧
      tokenize .data "8016.80c" = .ok [⟨.nuclide, "8016.80c", span⟩] ∧
      RawDeck.ofText options files "deck"
        (soleDataText (Record.data { d with body := .nuclides (ns.add "8016.80c" 1.0 false) }).text)
          = .ok deck ∧
      deck.cards = [card'] ∧ card'.parse = .error errors := by
  let card : Card := ⟨.data, ["m1 1001.80c 2 nlib=80c"], "deck", 4, 0⟩
  let card' : Card := ⟨.data, ["m1 1001.80c 2 8016.80c 1nlib=80c"], "deck", 4, 0⟩
  obtain ⟨d, ns, hd, hbody, hequal⟩ := exists_material card
    (fun d ns ↦ (Record.data { d with body := .nuclides (ns.add "8016.80c" 1.0 false) }).text ==
      card'.text)
    (by decide +kernel)
  have htext : (Record.data { d with body := .nuclides (ns.add "8016.80c" 1.0 false) }).text =
      card'.text :=
    eq_of_beq hequal
  have hdeck : RawDeck.ofText ⟨.standard, true⟩
    (fun _ ↦ .error .notFound) "deck" (soleDataText card'.text) =
      .ok ⟨none, some "t", [card'], [], false⟩ := by decide +kernel
  have hrejected : card'.parse.toOption.isNone = true := by decide +kernel
  obtain ⟨errors, herrors⟩ := Except.toOption_eq_none.mp (Option.isNone_iff_eq_none.mp hrejected)
  exact ⟨_, _, card, d, ns, _, _, card', errors, rfl, hd, hbody, tokenize_oxygen,
    htext ▸ hdeck, rfl, herrors⟩

end DataRecord

end TransportDeck
