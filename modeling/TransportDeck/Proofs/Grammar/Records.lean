import TransportDeck.Grammar.Records
import TransportDeck.Proofs.Grammar.Settling
import TransportDeck.Proofs.Record.Source

/-!
# What records read

A record that is read without a report is the closed form of a record whose source is all of the
text.
-/

namespace TransportDeck

/-- A record that was read from this text, and then made room between its parameters. -/
def Record.ReadAs (r : Record) (text : String) : Prop :=
  ∃ raw : Record, raw.closed = r ∧ raw.IsRead ∧ raw.source = text

namespace Production

variable {c : Cursor}

/-! ## Ends -/

/-- Behind the parameters the record ends. -/
theorem ReadsOrReports.parameters_finish {g : Grammar} {α : Type} {make : Parameters → α}
    {P : Parameters → List Token → Prop} {R : α → List Token → Prop} (hc : c.IsSettled)
    (hparameters : ReadsOrReports (Production.parameters g) c P)
    (h : ∀ ps, P ps c.rest → R (make ps) c.rest) : ReadsOrReports (do
      let ps ← Production.parameters g
      Production.finish
      return make ps) c R := by
  refine hparameters.bind fun ps ts c' hrun hts ↦ ?_
  have hc' := keeps_parameters g c ps c' hc hrun
  refine (Reads.finish_of_isSettled hc').bindReports ?_
  rintro _ _ c'' - - ⟨rfl, hnil⟩
  refine (Reads.pure fun hps ↦ ?_).orReports
  rw [hnil, List.append_nil] at hts
  subst hts
  simpa using h ps hps

/-! ## Kinds of records -/

/-- A density has the text that it is read from, or there is none. -/
theorem Reads.density? (material : Field) : Reads (density? material) c fun o ts ↦
    (∀ f ∈ o, f.IsRead) ∧ fieldSource o = textOf ts := by
  unfold Production.density?
  split_ifs
  · exact .pure ⟨by simp, rfl⟩
  · refine .map ((Reads.value _ _).mono fun f ts hf ↦ ?_)
    refine ⟨?_, by simp [fieldSource, hf.source_eq]⟩
    rintro _ ⟨⟩
    exact hf.isRead_asSignedFraction

theorem Reads.refuseLike : Reads refuseLike c fun _ ts ↦ ts = [] := by
  refine .current ?_
  split
  · exact .throw
  · exact .pure rfl

/-- A cell has the text of all its tokens, unless an error is reported. -/
theorem ReadsOrReports.cell (g : Grammar) : ReadsOrReports (cell g) c fun r ts ↦
    ts = c.rest ∧ (Record.cell r).ReadAs (textOf ts) := by
  refine Reads.layout.bindReports fun leading ls c₁ _ h₁ hleading ↦ ?_
  refine (Reads.value _ _).bindReports fun number ns c₂ _ h₂ hnumber ↦ ?_
  refine Reads.refuseLike.bindReports ?_
  rintro _ _ c₃ - h₃ rfl
  refine (Reads.value _ _).bindReports fun material ms c₄ _ h₄ hmaterial ↦ ?_
  refine (Reads.density? material).bindReports fun density ds c₅ _ h₅ hdensity ↦ ?_
  refine (Reads.geometry g).bindReports fun geometry gs c₆ hrun h₆ hgeometry ↦ ?_
  have hc₆ := settles_geometry g c₅ geometry c₆ hrun
  obtain ⟨tree, htree, hread, hsource⟩ := hgeometry
  refine .parameters_finish hc₆ (parameters g) fun ps hps ↦ ?_
  obtain ⟨raw, rfl, hraw, hparameters⟩ := hps
  refine ⟨by simp [h₁, h₂, h₃, h₄, h₅, h₆], .cell
    ⟨leading, number, material, density, geometry, raw, none⟩, rfl, ?_, ?_⟩
  · exact ⟨hnumber.isRead, hmaterial.isRead, hdensity.1, ⟨tree, htree, hread⟩, hraw, rfl⟩
  · simp [Record.source, CellRecord.source, hleading, hnumber.source_eq, hmaterial.source_eq,
      hdensity.2, hsource, hparameters, String.append_assoc]

/-- A number behind a plus has the text of its token, the mark and the number together. -/
theorem Reads.markedNumber {t : Token} {us : List Token} (hrest : c.rest = t :: us)
    (ht : t.text.toList.head? = some '+') : Reads (markedNumber t) c fun r ts ↦
      (r.1.IsRead ∧ r.2.IsRead) ∧ r.1.source ++ r.2.source = textOf ts := by
  refine (Reads.advance hrest).bind ?_
  rintro _ _ c₁ - rfl
  refine Reads.layout.bind fun behind ls c₂ _ hbehind ↦ ?_
  split
  · next number mark hnumber hmark =>
    have hn := Field.parsed_of_parse? hnumber
    have hm := (Field.parsed_of_parse? hmark).neverPad
    refine .pure ⟨⟨hm.isRead, hn.isRead⟩, ?_⟩
    obtain ⟨cs, hcs⟩ := List.head?_eq_some_iff.mp ht
    have htext : t.text = "+" ++ String.ofList cs := by
      rw [← String.ofList_toList (s := t.text), hcs, ← List.singleton_append, String.ofList_append]
    rw [hm.source_eq, hn.source_eq, hcs]
    simp [layoutText, htext, ← hbehind, String.append_assoc]
  · exact .throw

/-- The number of a surface has the text that it is read from, with the mark in front of it. -/
theorem Reads.surfaceNumber : Reads surfaceNumber c fun r ts ↦
    ((∀ f ∈ r.1, f.IsRead) ∧ r.2.IsRead) ∧ fieldSource r.1 ++ r.2.source = textOf ts := by
  refine .current ?_
  split
  · next t ht =>
    obtain ⟨hhead, hmarked⟩ := Option.filter_eq_some_iff.mp ht
    obtain ⟨us, hrest⟩ := List.head?_eq_some_iff.mp hhead
    have hplus : t.text.toList.head? = some '+' := by
      simp only [isMarkedNumber, Bool.and_eq_true, beq_iff_eq] at hmarked
      exact hmarked.2
    refine (Reads.markedNumber hrest hplus).bind ?_
    rintro ⟨mark, number⟩ ts c' - ⟨⟨hm, hn⟩, htext⟩
    refine .pure ⟨⟨?_, hn⟩, by simpa [fieldSource] using htext⟩
    rintro _ ⟨⟩
    exact hm
  · refine (Reads.word? _).bind fun mark ms c₁ _ hmark ↦ ?_
    refine .map ((Reads.value _ _).mono fun number ns hnumber ↦ ?_)
    refine ⟨⟨?_, hnumber.isRead⟩, ?_⟩
    · intro f hf
      obtain ⟨m, hm, rfl⟩ := Option.mem_map.mp hf
      exact (hmark.1 m hm).isRead.neverPad
    · have hsource : fieldSource (mark.map Field.neverPad) = fieldSource mark := by
        cases mark <;> rfl
      rw [hsource, fieldSource_of hmark, hnumber.source_eq, textOf_append]

theorem Reads.transform? : Reads transform? c fun o ts ↦
    (∀ f ∈ o, f.IsRead) ∧ fieldSource o = textOf ts := by
  refine .currentKind ?_
  split_ifs
  · refine .map ((Reads.value _ _).mono fun f ts hf ↦ ⟨?_, by simp [fieldSource, hf.source_eq]⟩)
    rintro _ ⟨⟩
    exact hf.isRead
  · exact .pure ⟨by simp, rfl⟩

theorem Reads.surfaceType : Reads surfaceType c fun f ts ↦ f.ReadAs (textOf ts) := by
  refine .currentKind ?_
  split_ifs
  · exact .value _ _
  · exact .unexpected

theorem settles_surfaceType : Settles surfaceType := by
  refine .of_bind fun k ↦ ?_
  split_ifs
  · exact settles_value _ _
  · exact .unexpected

/-- A surface has the text of all its tokens, unless an error is reported. -/
theorem ReadsOrReports.surface (g : Grammar) : ReadsOrReports (surface g) c fun r ts ↦
    ts = c.rest ∧ (Record.surface r).ReadAs (textOf ts) := by
  refine Reads.layout.bindReports fun leading ls c₁ _ h₁ hleading ↦ ?_
  refine Reads.surfaceNumber.bindReports ?_
  rintro ⟨mark, number⟩ ns c₂ - h₂ ⟨⟨hmark, hnumber⟩, hsource⟩
  refine Reads.transform?.bindReports fun transform rs c₃ _ h₃ htransform ↦ ?_
  refine Reads.surfaceType.bindReports fun type ts c₄ hrun h₄ htype ↦ ?_
  have hc₄ := settles_surfaceType c₃ type c₄ hrun
  refine (Reads.values g .real).bindReports fun constants vs c₅ hrun h₅ hconstants ↦ ?_
  have hc₅ := keeps_values g .real c₄ constants c₅ hc₄ hrun
  refine (Reads.finish_of_isSettled hc₅).bindReports ?_
  rintro _ _ c₆ - - ⟨rfl, hnil⟩
  refine (Reads.pure ⟨by simp [h₁, h₂, h₃, h₄, h₅, hnil], ?_⟩).orReports
  refine ⟨.surface ⟨leading, mark, number, transform, type, constants⟩, rfl, ?_, ?_⟩
  · exact ⟨hmark, hnumber, htransform.1, htype.isRead, hconstants.1⟩
  · simp [Record.source, SurfaceRecord.source, hleading, ← hsource, htransform.2, htype.source_eq,
      hconstants.2, String.append_assoc]

theorem Reads.keyword? (g : Grammar) : Reads (keyword? g) c fun o ts ↦
    (∀ f ∈ o, f.IsRead) ∧ fieldSource o = textOf ts := by
  refine .currentKind (.get ?_)
  split_ifs
  · refine .map ((Reads.value _ _).mono fun f ts hf ↦ ⟨?_, by simp [fieldSource, hf.source_eq]⟩)
    rintro _ ⟨⟩
    exact hf.isRead
  · exact .pure ⟨by simp, rfl⟩

theorem keeps_keyword? (g : Grammar) : Keeps (keyword? g) := by
  refine Keeps.currentKind?.bind fun k ↦ Keeps.get.bind fun c ↦ ?_
  split_ifs
  · exact (settles_value _ _).keeps.bind fun _ ↦ .pure
  · exact .pure

/-- The body of a data record has the text that it is read from. -/
theorem Reads.body (g : Grammar) (cl : Classifier) : Reads (body g cl) c fun b ts ↦
    b.IsRead ∧ b.source = textOf ts := by
  refine .current ?_
  split_ifs
  · exact .map Reads.nuclides
  · exact .map (Reads.values g .real)
  · exact .pure ⟨FieldList.readAs_empty.isRead, rfl⟩

theorem keeps_body (g : Grammar) (cl : Classifier) : Keeps (body g cl) := by
  refine Keeps.current?.bind fun o ↦ ?_
  split_ifs
  · exact keeps_nuclides.bind fun _ ↦ .pure
  · exact (keeps_values g .real).bind fun _ ↦ .pure
  · exact .pure

/-- A data record has the text of all its tokens, unless an error is reported. -/
theorem ReadsOrReports.data (g : Grammar) : ReadsOrReports (data g) c fun r ts ↦
    ts = c.rest ∧ (Record.data r).ReadAs (textOf ts) := by
  refine Reads.layout.bindReports fun leading ls c₁ _ h₁ hleading ↦ ?_
  refine (Reads.classifier g).bindReports ?_
  rintro cl cs c₂ hrun h₂ ⟨hcl, hclassifier⟩
  have hc₂ := settles_classifier g c₁ cl c₂ hrun
  refine (Reads.keyword? g).bindReports fun keyword ks c₃ hrun h₃ hkeyword ↦ ?_
  have hc₃ := keeps_keyword? g c₂ keyword c₃ hc₂ hrun
  refine (Reads.body g cl).bindReports fun body bs c₄ hrun h₄ hbody ↦ ?_
  have hc₄ := keeps_body g cl c₃ body c₄ hc₃ hrun
  refine .parameters_finish hc₄ (parameters g) fun ps hps ↦ ?_
  obtain ⟨raw, rfl, hraw, hparameters⟩ := hps
  refine ⟨by simp [h₁, h₂, h₃, h₄], .data ⟨leading, cl, keyword, body, raw⟩, rfl, ?_, ?_⟩
  · exact ⟨hcl, hkeyword.1, hbody.1, hraw⟩
  · simp [Record.source, DataRecord.source, hleading, hclassifier, hkeyword.2, hbody.2,
      hparameters, String.append_assoc]

/-- A request has the text of all its tokens, unless an error is reported. -/
theorem ReadsOrReports.read (g : Grammar) : ReadsOrReports (read g) c fun r ts ↦
    ts = c.rest ∧ (Record.read r).ReadAs (textOf ts) := by
  refine Reads.layout.bindReports fun leading ls c₁ _ h₁ hleading ↦ .get ?_
  split_ifs
  · refine (Reads.value _ _).bindReports fun keyword ks c₂ hrun h₂ hkeyword ↦ ?_
    have hc₂ := settles_value _ _ c₁ keyword c₂ hrun
    refine .parameters_finish hc₂ (parameters g) fun ps hps ↦ ?_
    obtain ⟨raw, rfl, hraw, hparameters⟩ := hps
    refine ⟨by simp [h₁, h₂], .read ⟨leading, keyword, raw⟩, rfl, ⟨hkeyword.isRead, hraw⟩, ?_⟩
    simp [Record.source, ReadRecord.source, hleading, hkeyword.source_eq, hparameters,
      String.append_assoc]
  · exact Reads.unexpected.orReports

/-- What holds of the records of each kind holds of a record. -/
theorem ReadsOrReports.record_of {g : Grammar} {R : Record → List Token → Prop}
    (hcell : g.kind = .cell → ReadsOrReports (Production.cell g) c fun r ts ↦ R (.cell r) ts)
    (hsurface : g.kind = .surface → ReadsOrReports (Production.surface g) c fun r ts ↦
      R (.surface r) ts)
    (hdata : g.kind = .data → ReadsOrReports (Production.data g) c fun r ts ↦ R (.data r) ts)
    (hread : g.kind = .read → ReadsOrReports (Production.read g) c fun r ts ↦ R (.read r) ts) :
    ReadsOrReports (Production.record g) c R := by
  unfold Production.record
  split
  · next hkind => exact (hcell hkind).map
  · next hkind => exact (hsurface hkind).map
  · next hkind => exact (hdata hkind).map
  · next hkind => exact (hread hkind).map

/-- A record is read to its end, whatever its kind. -/
theorem ReadsOrReports.record (g : Grammar) : ReadsOrReports (record g) c fun r ts ↦
    ts = c.rest ∧ r.ReadAs (textOf ts) :=
  .record_of (fun _ ↦ .cell g) (fun _ ↦ .surface g) (fun _ ↦ .data g) fun _ ↦ .read g

end Production

/-! ## Whole records -/

/-- A record is read if there is one and nothing is reported. -/
theorem Cursor.parse_eq_ok_iff {g : Grammar} {c : Cursor} {r : Record} : c.parse g = .ok r ↔
    c.stream.onlyLayoutLeft = false ∧ ∃ c', (Production.record g).run c =
      (.ok r, c') ∧ c'.errors = [] := by
  unfold Cursor.parse
  constructor
  · intro h
    split_ifs at h with hlayout
    split at h
    · next r' c' hrun =>
      split_ifs at h with herrors
      obtain rfl := Except.ok.inj h
      exact ⟨by simpa using hlayout, c', hrun, List.isEmpty_iff.mp herrors⟩
    · cases h
  · rintro ⟨hlayout, c', hrun, herrors⟩
    rw [hlayout, hrun]
    simp [herrors]

/-- The kind of the grammar that reads such a record, which none does if it is verbatim. -/
def Record.grammarKind? : Record → Option RecordKind
  | cell _ => some .cell
  | surface _ => some .surface
  | data _ => some .data
  | read _ => some .read
  | verbatim _ => none

/-- A record is of the kind that its grammar reads. -/
theorem Production.grammarKind?_of_record {g : Grammar} {c c' : Cursor} {r : Record}
    (h : (Production.record g).run c = (.ok r, c')) : r.grammarKind? = some g.kind := by
  unfold Production.record at h
  cases hkind : g.kind <;> rw [hkind] at h <;> obtain ⟨_, _, -, ⟨⟩⟩ :=
    Production.run_bind_ok h <;> rfl

/-- A grammar reads records of its kind only. -/
theorem Grammar.grammarKind?_of_parse {g : Grammar} {text : String} {r : Record}
    (h : g.parse text = .ok r) : r.grammarKind? = some g.kind := by
  unfold Grammar.parse at h
  split at h
  · cases h
  obtain ⟨-, c', hrun, -⟩ := Cursor.parse_eq_ok_iff.mp h
  exact Production.grammarKind?_of_record hrun

/-- What holds of every record that the grammar reads holds of one that is read from a text, and of
all its tokens. -/
theorem Grammar.exists_tokens {g : Grammar} {text : String} {r : Record}
    {R : Record → List Token → Prop}
    (hrecord : ∀ c, Production.ReadsOrReports (Production.record g) c R)
    (h : g.parse text = .ok r) : ∃ ts, tokenize g.mode text = .ok ts ∧ R r ts := by
  unfold Grammar.parse at h
  split at h
  · cases h
  next tokens htokens =>
  obtain ⟨-, c', hrun, herrors⟩ := Cursor.parse_eq_ok_iff.mp h
  have hlex : (Cursor.of (.of tokens)).IsLexed := Lexer.spells_of_tokensFrom htokens
  obtain ⟨ts, -, ⟨-, hr, hts, -⟩ | hreport⟩ := ((hrecord _).and (.record g)) hlex r c' hrun
  · obtain rfl : ts = tokens := hts
    exact ⟨ts, htokens, hr⟩
  · exact absurd herrors hreport

/-- A text is the text of the record that it is read as. -/
theorem Grammar.readAs_of_parse {g : Grammar} {text : String} {r : Record}
    (h : g.parse text = .ok r) :
    r.ReadAs text := by
  have hrecord (c : Cursor) : Production.ReadsOrReports (Production.record g) c fun r ts ↦
      r.ReadAs (textOf ts) :=
    (Production.ReadsOrReports.record g).mono fun _ _ hr ↦ hr.2
  obtain ⟨ts, htokens, hread⟩ := Grammar.exists_tokens hrecord h
  have htext : textOf ts = text := (Lexer.textOf_tokensFrom htokens).trans String.ofList_toList
  rwa [htext] at hread

/-- A card is read with the grammar of its block, or it is kept as it is. -/
theorem Card.parse_cases {c : Card} {r : Record} (h : c.parse = .ok r) :
    (Grammar.ofCard c).parse c.text = .ok r ∨ r = .verbatim (.ofText c.text) := by
  unfold Card.parse at h
  dsimp only at h
  split at h
  · next r' hr => exact .inl (hr.trans h)
  · split_ifs at h
    exact .inr (Except.ok.inj h).symm

/-- The text of a card is the text of the record that it is read as. -/
theorem Card.readAs_of_parse {c : Card} {r : Record} (h : c.parse = .ok r) : r.ReadAs c.text := by
  obtain hr | rfl := Card.parse_cases h
  · exact Grammar.readAs_of_parse hr
  · exact ⟨.verbatim (.ofText c.text), rfl, trivial, rfl⟩

/-!
## Round trips

A card that is read gives its text back, unless one of few things is written anew in another way.
-/

namespace Card

/-- The record of a card was read from all of its text, and gives the text back exactly if every
part is written as its source. -/
theorem text_eq_iff_faithful {c : Card} {r : Record} (h : c.parse = .ok r) :
    ∃ raw : Record, raw.closed = r ∧ raw.IsRead ∧ raw.source = c.text ∧
      (r.text = c.text ↔ raw.Faithful) := by
  obtain ⟨raw, rfl, hread, hsource⟩ := readAs_of_parse h
  refine ⟨raw, rfl, hread, hsource, ?_⟩
  rw [← hsource]
  exact hread.echoes.eq_iff

/-- What can be computed from the record that a card is read as. -/
theorem exists_of_text {c : Card} {s : String}
    (h : (match c.parse with | .ok r => r.text == s | .error _ => false) = true) :
    ∃ r, c.parse = .ok r ∧ r.text = s := by
  split at h
  · next r hr => exact ⟨r, hr, by simpa using h⟩
  · cases h

/-- A card with shorthands of two kinds gives its text back. -/
theorem text_eq_of_repeat : let c : Card := ⟨.data, ["nps 1 2r  3j"], "deck", 1, 0⟩
    ∃ r, c.parse = .ok r ∧ r.text = c.text ∧ ∃ raw : Record, raw.closed = r ∧ raw.IsRead ∧
      raw.source = c.text ∧ raw.Faithful := by
  intro c
  obtain ⟨r, hr, htext⟩ := exists_of_text (c := c) (s := c.text) (by decide +kernel)
  obtain ⟨raw, hclosed, hread, hsource, hiff⟩ := text_eq_iff_faithful hr
  exact ⟨r, hr, htext, raw, hclosed, hread, hsource, hiff.mp htext⟩

/-- A jump over no places is read, and is not written again. -/
theorem text_ne_of_empty_jump : ∃ (c : Card) (r : Record), c.parse = .ok r ∧ r.text ≠ c.text := by
  obtain ⟨r, hr, htext⟩ :=
    exists_of_text (c := ⟨.data, ["nps 0j 5"], "deck", 1, 0⟩) (s := "nps 5") (by decide +kernel)
  refine ⟨_, r, hr, ?_⟩
  rw [htext]
  decide +kernel

end Card

end TransportDeck
