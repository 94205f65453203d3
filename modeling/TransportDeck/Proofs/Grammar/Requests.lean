import TransportDeck.Proofs.Grammar.Expansion
import TransportDeck.Proofs.Grammar.ParameterRuns
import TransportDeck.Proofs.Grammar.Records

/-!
# What requests read

The names in a request for a file are the keyword that it starts with and, for each parameter, its
keyword and its values.  They stand in the record in this order, and the values are file names.  So
the file of the request is the name behind the word `file`.
-/

namespace TransportDeck

/-! ## Names -/

/-- The kinds of tokens in a record that names a file. -/
def TokenKind.inRequest : TokenKind → Bool
  | space | inlineComment | comment | ampersand | keyword | fileName | complement | equals => true
  | _ => false

/-- Complements are in front of the words of a record, and no production of a request takes one. -/
def TokenKind.isName : TokenKind → Bool
  | keyword | fileName | complement => true
  | _ => false

/-- The tokens of a record that are neither layout nor equals signs. -/
def namesOf (ts : List Token) : List Token := ts.filter (·.kind.isName)

/-- Names are collected from the left. -/
theorem namesOf_append (ts us : List Token) : namesOf (ts ++ us) = namesOf ts ++ namesOf us :=
  List.filter_append ..

/-- There are no names in layout. -/
theorem namesOf_of_layout {ts : List Token} (h : ∀ t ∈ ts, t.isLayout = true) :
    namesOf ts = [] := by
  refine List.filter_eq_nil_iff.mpr fun t ht ↦ ?_
  have hlayout := h t ht
  rw [Token.isLayout] at hlayout
  cases hk : t.kind <;> rw [hk] at hlayout <;>
    first | (cases hlayout; done) | simp [TokenKind.isName]

/-- A token of a record that names a file.  The words of the vocabulary are its keywords. -/
structure Token.InRequest (t : Token) : Prop where
  kind : t.kind.inRequest = true
  keyword : t.isLayout = false → (Vocabulary.isKeyword t.text = true ↔ t.kind = .keyword)

def InRequest (ts : List Token) : Prop := ∀ t ∈ ts, t.InRequest

/-- Both parts of a request are made of tokens of requests. -/
theorem InRequest.of_append {ts us : List Token} (h : InRequest (ts ++ us)) :
    InRequest ts ∧ InRequest us :=
  List.forall_mem_append.mp h

/-- The values are the words of these tokens, which are file names. -/
structure FieldList.IsNamed (l : FieldList) (ts : List Token) : Prop where
  values_eq : l.values = ts.map fun t ↦ some (.text t.text)
  kinds : ∀ t ∈ ts, t.kind = .fileName

/-- A file name is put at the end of a list of names. -/
theorem FieldList.IsNamed.pushField {l : FieldList} {ts : List Token} (h : l.IsNamed ts) {f : Field}
    {t : Token} (hf : f.signed = some (.text t.text)) (hkind : t.kind = .fileName) :
    (l.pushField f).IsNamed (ts ++ [t]) where
  values_eq := by
    have hfields : (l.pushField f).fields = l.fields ++ [f] := by
      simp [FieldList.fields, FieldList.pushField, Item.fields]
    have hvalues : l.fields.map Field.signed = _ := h.values_eq
    rw [FieldList.values, hfields, List.map_append, List.map_append,
      hvalues, List.map_singleton, hf]
    rfl
  kinds := by
    rw [List.forall_mem_append, List.forall_mem_singleton]
    exact ⟨h.kinds, hkind⟩

/-- A parameter is its keyword and file names. -/
structure Parameter.IsNamed (p : Parameter) (t : Token) (ts : List Token) : Prop where
  keyword : t.kind = .keyword
  key_eq : p.key = Text.lowerString t.text
  values : p.values.IsNamed ts

/-- Parameters one behind the other. -/
inductive AreNamed : List Parameter → List Token → Prop where
  | nil : AreNamed [] []
  | cons {p : Parameter} {ps : List Parameter} {t : Token} {ts us : List Token}
      (head : p.IsNamed t ts) (tail : AreNamed ps us) : AreNamed (p :: ps) (t :: (ts ++ us))

/-- The names of the tokens are those in the request. -/
def ReadRecord.IsNamed (r : ReadRecord) (ts : List Token) : Prop :=
  ∃ t us raws, namesOf ts = t :: us ∧ t.spells "read" = true ∧ r.parameters = .of raws ∧
    (raws.map Parameter.key).Nodup ∧ AreNamed raws us

namespace Production

variable {c : Cursor}

/-- Layout holds no names. -/
theorem names_layout : Reads layout c fun _ ts ↦ namesOf ts = [] :=
  (Reads.takeWhile Token.isLayout).bind fun _ _ _ _ h ↦ .pure (by
    rw [List.append_nil]
    exact namesOf_of_layout h.2)

/-- A value is read from one token and the layout behind it. -/
theorem names_value (kind : ValueKind) (expected : String) :
    Reads (value kind expected) c fun f ts ↦
    ∃ t us, c.rest.head? = some t ∧ ts = t :: us ∧ namesOf us = [] ∧ accepts kind t = true ∧
      f.signed = Field.readValue? kind t.text := by
  refine .current ?_
  split
  · exact .unexpected
  · next t ht =>
    obtain ⟨hhead, haccepts⟩ := Option.filter_eq_some_iff.mp ht
    obtain ⟨us, hrest⟩ := List.head?_eq_some_iff.mp hhead
    split
    · exact .unexpected
    · next f hf =>
      refine (Reads.advance hrest).bind ?_
      rintro _ _ c' - rfl
      refine names_layout.bind fun l ts c'' _ hnames ↦
        .pure ⟨t, ts, hhead, by simp, hnames, haccepts, ?_⟩
      obtain ⟨v, hv, rfl⟩ := Option.map_eq_some_iff.mp hf
      exact hv.symm

/-! ## Keywords -/

/-- There are no marks in a request. -/
theorem names_modifier : Reads (word? isMark) c fun o ts ↦ InRequest ts → o = none ∧ ts = [] := by
  refine .current ?_
  split
  · next t ht =>
    obtain ⟨hhead, hmark⟩ := Option.filter_eq_some_iff.mp ht
    obtain ⟨us, hrest⟩ := List.head?_eq_some_iff.mp hhead
    refine (Reads.advance hrest).bind ?_
    rintro _ _ c' - rfl
    refine .pure fun hrequest ↦ ?_
    have hkind := (hrequest t (by simp)).kind
    simp only [isMark, Bool.or_eq_true, beq_iff_eq] at hmark
    rcases hmark with hmark | hmark <;> rw [hmark] at hkind <;> cases hkind
  · exact .pure fun _ ↦ ⟨rfl, rfl⟩

/-- The only words in a request are keywords. -/
theorem eq_keyword_of_isWord {t : Token} (hword : isWord t = true) (h : t.kind.inRequest = true) :
    t.kind = .keyword := by
  unfold isWord at hword
  cases hk : t.kind <;> rw [hk] at hword h <;> first | rfl | (cases hword; done) | cases h

/-- A word in a request is a keyword, with its text as it stands. -/
theorem names_word : Reads (word? isWord) c fun o ts ↦ InRequest ts → ∀ f ∈ o,
    ∃ t, ts = [t] ∧ t.kind = .keyword ∧ f.toText? = some t.text := by
  refine .current ?_
  split
  · next t ht =>
    obtain ⟨hhead, hword⟩ := Option.filter_eq_some_iff.mp ht
    obtain ⟨us, hrest⟩ := List.head?_eq_some_iff.mp hhead
    refine (Reads.advance hrest).bind ?_
    rintro _ _ c' - rfl
    refine .pure ?_
    rintro hrequest _ ⟨⟩
    exact ⟨t, by simp, eq_keyword_of_isWord hword (hrequest t (by simp)).kind, rfl⟩
  · exact .pure (by simp)

/-- There are no numbers behind the words in a request. -/
theorem names_nameNumber? : Reads nameNumber? c fun o ts ↦ InRequest ts → o = none ∧ ts = [] := by
  refine .current ?_
  split
  · exact .pure fun _ ↦ ⟨rfl, rfl⟩
  · next t ht =>
    obtain ⟨hhead, hnumber⟩ := Option.filter_eq_some_iff.mp ht
    obtain ⟨us, hrest⟩ := List.head?_eq_some_iff.mp hhead
    split
    · refine (Reads.advance hrest).bind ?_
      rintro _ _ c' - rfl
      refine .pure fun hrequest ↦ ?_
      have hkind := (hrequest t (by simp)).kind
      rw [Bool.and_eq_true] at hnumber
      have hnumber := hnumber.1
      cases hk : t.kind <;> rw [hk] at hkind hnumber <;> first | (cases hkind; done) | cases hnumber
    · exact .pure fun _ ↦ ⟨rfl, rfl⟩

/-- There are no particles in a request. -/
theorem names_particles? : Reads particles? c fun o ts ↦ InRequest ts → o = none ∧ ts = [] := by
  refine .currentKind ?_
  split_ifs with hcolon
  · obtain ⟨t, hhead, hkind⟩ := Option.map_eq_some_iff.mp (beq_iff_eq.mp hcolon)
    obtain ⟨us, hrest⟩ := List.head?_eq_some_iff.mp hhead
    refine .get ((Reads.advance hrest).bind ?_)
    rintro _ _ c' - rfl
    refine (Reads.takeWhile _).bind fun taken ts c'' _ _ ↦ ?_
    dsimp only
    split
    · refine .pure fun hrequest ↦ ?_
      have := (hrequest t (by simp)).kind
      rw [hkind] at this
      cases this
    · exact .throw
  · exact .pure fun _ ↦ ⟨rfl, rfl⟩

/-- A classifier in a request is one keyword, and its key is that word in lower case. -/
theorem names_classifier (g : Grammar) : Reads (classifier g) c fun cl ts ↦ InRequest ts →
    ∃ t, namesOf ts = [t] ∧ t.kind = .keyword ∧ cl.key = Text.lowerString t.text := by
  unfold Production.classifier
  split_ifs
  · exact .unexpected
  refine names_modifier.bind fun modifier ms c₁ _ hmodifier ↦ ?_
  refine names_word.bind fun name ns c₂ _ hname ↦ ?_
  cases name with
  | none => exact .unexpected
  | some name =>
    refine names_nameNumber?.bind fun number is c₃ _ hnumber ↦ ?_
    refine names_particles?.bind fun particles ps c₄ _ hparticles ↦ ?_
    refine names_layout.bind fun l ls c₅ _ hls ↦ .pure fun hrequest ↦ ?_
    rw [List.append_nil] at hrequest
    obtain ⟨hms, hrequest⟩ := hrequest.of_append
    obtain ⟨hns, hrequest⟩ := hrequest.of_append
    obtain ⟨his, hrequest⟩ := hrequest.of_append
    obtain ⟨hps, -⟩ := hrequest.of_append
    obtain ⟨rfl, rfl⟩ := hmodifier hms
    obtain ⟨rfl, rfl⟩ := hnumber his
    obtain ⟨rfl, rfl⟩ := hparticles hps
    obtain ⟨t, rfl, hkind, htext⟩ := hname hns name rfl
    refine ⟨t, ?_, hkind, ?_⟩
    · have hone : namesOf [t] = [t] := by simp [namesOf, hkind, TokenKind.isName]
      simp only [namesOf_append, hls, hone, List.append_nil, List.nil_append]
    · simp [Classifier.key, Classifier.word, htext, Classifier.numberValue?]

/-! ## File names -/

/-- A keyword starts a parameter. -/
theorem parameterAhead_read {s : TokenStream} {t : Token} (hs : s.current? = some t)
    (hkind : t.kind = .keyword) : parameterAhead .read s = true := by
  have hmark : isMark t = false := by simp [isMark, hkind]
  have hword : isWord t = true := by simp [isWord, hkind, TokenKind.isWord]
  simp [parameterAhead, hs, hmark, hword, Grammar.read]

/-- An item in a request that is no keyword is a file name. -/
theorem eq_fileName_of_isItem {t : Token} (hitem : isItem .read t = true)
    (hname : t.kind ≠ .keyword) (h : t.kind.inRequest = true) : t.kind = .fileName := by
  change (isItemMark t.kind || t.kind.isWord) = true at hitem
  cases hk : t.kind <;> rw [hk] at hitem h hname <;>
    first | rfl | (cases hitem; done) | (cases h; done) | exact absurd rfl hname

/-- What a list takes is a file name. -/
theorem names_item? (preferred : ValueKind) (l : FieldList) :
    Reads (item? .read preferred l) c fun o us ↦
    match o with
      | some l' => InRequest us → ∀ ts, l.IsNamed ts → l'.IsNamed (ts ++ namesOf us)
      | none => us = [] := by
  have pushes {kind : ValueKind} {expected : String} : Reads (do
      return some (l.pushField (← value kind expected))) c fun o us ↦ ∃ t f vs, c.rest.head? =
        some t ∧ us = t :: vs ∧ namesOf vs = [] ∧ o = some (l.pushField f) ∧
        f.signed = Field.readValue? kind t.text := by
    refine .map ((names_value kind expected).mono ?_)
    rintro f us ⟨t, vs, hhead, rfl, hvs, -, hf⟩
    exact ⟨t, f, vs, hhead, rfl, hvs, rfl, hf⟩
  refine .current ?_
  split
  · exact .pure rfl
  next t hhead =>
  obtain ⟨us, hrest⟩ := List.head?_eq_some_iff.mp hhead
  have number {kind : ValueKind} {expected : String} (hkind : t.kind.inRequest = false) : Reads (do
      return some (l.pushField (← value kind expected))) c fun o us ↦ match o with
        | some l' => InRequest us → ∀ ts, l.IsNamed ts → l'.IsNamed (ts ++ namesOf us)
        | none => us = [] := by
    refine pushes.mono ?_
    rintro _ _ ⟨t', f, vs, hhead', rfl, -, rfl, -⟩ hrequest
    obtain rfl := Option.some.inj (hhead.symm.trans hhead')
    have := (hrequest t List.mem_cons_self).kind
    rw [hkind] at this
    cases this
  split
  · next hkind => exact number (by rw [hkind]; rfl)
  · next hkind => exact number (by rw [hkind]; rfl)
  · refine (Reads.advance hrest).bind ?_
    rintro _ _ c' - -
    exact .map .throw
  · refine .get ?_
    split_ifs with hahead hitem
    · exact .pure rfl
    · refine pushes.mono ?_
      rintro _ _ ⟨t', f, vs, hhead', rfl, hvs, rfl, hf⟩ hrequest ts hl
      obtain rfl := Option.some.inj (hhead.symm.trans hhead')
      have hname : t.kind ≠ .keyword := by
        intro hkeyword
        rw [parameterAhead_read (by rwa [c.current?_eq_head?]) hkeyword] at hahead
        exact hahead rfl
      have hkind := eq_fileName_of_isItem hitem hname (hrequest t List.mem_cons_self).kind
      have hnames : namesOf (t :: vs) = [t] := by
        have hone : namesOf [t] = [t] := by simp [namesOf, hkind, TokenKind.isName]
        rw [← List.singleton_append, namesOf_append, hone, hvs]
        rfl
      rw [hnames]
      exact hl.pushField hf hkind
    · exact .pure rfl

/-- The values in a request are the names in it, in their order. -/
theorem names_values (preferred : ValueKind) : Reads (values .read preferred) c fun l ts ↦
    InRequest ts → l.IsNamed (namesOf ts) := by
  have hloop : Reads (loop (item? .read preferred) .empty) c fun l ts ↦ InRequest ts →
      l.IsNamed (namesOf ts) := by
    refine .loop (I := fun (l : FieldList) ts ↦ InRequest ts → l.IsNamed (namesOf ts)) ?_
      fun _ ↦ ⟨rfl, by simp [namesOf]⟩
    intro l ts c' _ h
    refine (names_item? preferred l).mono fun o us ho ↦ ?_
    cases o with
    | none => exact ho
    | some l' =>
      intro hrequest
      obtain ⟨hts, hus⟩ := hrequest.of_append
      rw [namesOf_append]
      exact ho hus _ (h hts)
  refine .map (hloop.mono fun l ts h hrequest ↦ ?_)
  exact ⟨(FieldList.values_detachTail l).trans (h hrequest).values_eq, (h hrequest).kinds⟩

/-! ## Parameters -/

/-- There are no names in a separator. -/
theorem names_separator? (g : Grammar) : Reads (separator? g) c fun _ ts ↦ namesOf ts = [] := by
  refine .currentKind ?_
  split_ifs with hequals
  · obtain ⟨t, hhead, hkind⟩ := Option.map_eq_some_iff.mp (beq_iff_eq.mp hequals)
    obtain ⟨us, hrest⟩ := List.head?_eq_some_iff.mp hhead
    refine (Reads.advance hrest).bind ?_
    rintro _ _ c' - rfl
    refine .map (names_layout.mono fun l ts hls ↦ ?_)
    rw [namesOf_append, hls, List.append_nil]
    simp [namesOf, hkind, TokenKind.isName]
  · exact .unexpected
  · exact .pure rfl

/-- A parameter of a request is a keyword and the names behind it. -/
theorem names_parameter : Reads (parameter .read) c fun p ts ↦ InRequest ts →
    ∃ t us, namesOf ts = t :: us ∧ p.IsNamed t us := by
  refine (names_classifier .read).bind fun cl cs c₁ _ hcl ↦ ?_
  refine (names_separator? .read).bind fun sep ss c₂ _ hsep ↦ ?_
  refine (names_values .int).bind fun vs ts c₃ _ hvs ↦ ?_
  split_ifs
  · exact .unexpected
  · refine .pure fun hrequest ↦ ?_
    obtain ⟨hcs, hrequest⟩ := hrequest.of_append
    obtain ⟨-, hrequest⟩ := hrequest.of_append
    obtain ⟨hts, -⟩ := hrequest.of_append
    obtain ⟨t, ht, hkind, hkey⟩ := hcl hcs
    refine ⟨t, namesOf ts, ?_, hkind, hkey, hvs hts⟩
    simp [namesOf_append, ht, hsep]

/-- The parameters that have been read from these tokens, if these are tokens of a request. -/
def HoldsNames (ps : Parameters) (ts : List Token) : Prop :=
  InRequest ts → ∃ raws, ps = .of raws ∧ (raws.map Parameter.key).Nodup ∧ AreNamed raws (namesOf ts)

/-- The parameters of a request hold its names, one behind the other. -/
theorem areNamed_flatten {raws : List Parameter} {tss : List (List Token)}
    (hts : InRequest tss.flatten)
    (h : List.Forall₂ (fun p ts ↦ InRequest ts → ∃ t us, namesOf ts = t :: us ∧ p.IsNamed t us)
      raws tss) : AreNamed raws (namesOf tss.flatten) := by
  induction h with
  | nil => exact .nil
  | cons head _ ih =>
    rw [List.flatten_cons] at hts ⊢
    obtain ⟨hfirst, hrest⟩ := hts.of_append
    obtain ⟨t, us, hnames, hnamed⟩ := head hfirst
    rw [namesOf_append, hnames]
    exact .cons hnamed (ih hrest)

/-- Unless a parameter is reported, the parameters of a request hold its names. -/
theorem names_parameters : ReadsOrReports (parameters .read) c HoldsNames := by
  refine (lists_parameters (fun _ ↦ names_parameter) c).mono ?_
  rintro _ _ ⟨raws, tss, rfl, hkeys, rfl, hraws⟩ hrequest
  exact ⟨raws, rfl, hkeys, areNamed_flatten hrequest hraws⟩

/-! ## Requests -/

/-- A request holds the names among all of its tokens. -/
theorem names_read :
    ReadsOrReports (read .read) c fun r ts ↦ ts = c.rest ∧ (InRequest ts → r.IsNamed ts) := by
  refine names_layout.bindReports fun leading ls c₁ _ h₁ hls ↦ .get ?_
  split_ifs with hread
  swap
  · exact Reads.unexpected.orReports
  refine (names_value .text "READ").bindReports ?_
  rintro keyword _ c₂ - h₂ ⟨t, vs, hhead, rfl, hvs, haccepts, -⟩
  refine names_parameters.bind fun ps ts c₃ _ h₃ ↦ ?_
  refine Reads.finish.bindReports ?_
  rintro _ es c₄ - h₄ ⟨rfl, hes⟩
  have hend : c₄.rest = [] := by simpa using h₄
  refine (Reads.pure fun hps ↦ ⟨by simp [h₁, h₂, h₃], fun hrequest ↦ ?_⟩).orReports
  rw [c₁.current?_eq_head?, hhead] at hread
  obtain ⟨-, hrequest⟩ := hrequest.of_append
  obtain ⟨hts, hrequest⟩ := hrequest.of_append
  obtain ⟨hps', -⟩ := hrequest.of_append
  obtain ⟨raws, hraws, hkeys, hnamed⟩ := hps hps'
  have hread : t.spells "read" = true := hread
  have hword : Vocabulary.isKeyword t.text = true :=
    List.any_eq_true.mpr
      ⟨"read", by decide, by rwa [Token.spells, Text.sameWord, BEq.comm] at hread⟩
  have hkind := ((hts t List.mem_cons_self).keyword (by simpa [accepts] using haccepts)).mp hword
  have hone : namesOf (t :: vs) = [t] := by
    have hone : namesOf [t] = [t] := by simp [namesOf, hkind, TokenKind.isName]
    rw [← List.singleton_append, namesOf_append, hone, hvs]
    rfl
  refine ⟨t, namesOf ts, raws, ?_, hread, hraws, hkeys, hnamed⟩
  simp only [namesOf_append, hls, hone, namesOf_of_layout hes, List.append_nil,
    List.nil_append, List.singleton_append]

end Production

/-- A text that is read as a request has tokens, and the request holds their names. -/
theorem Grammar.exists_tokens_of_parse {text : String} {r : ReadRecord}
    (h : Grammar.read.parse text = .ok (.read r)) :
    ∃ ts, tokenize .read text = .ok ts ∧ (InRequest ts → r.IsNamed ts) := by
  have hrecord (c : Cursor) : Production.ReadsOrReports (Production.record .read) c fun r ts ↦
      ∀ r', r = .read r' → InRequest ts → r'.IsNamed ts := by
    refine .record_of nofun nofun nofun fun _ ↦ Production.names_read.mono ?_
    rintro r ts ⟨-, hnames⟩ _ ⟨⟩
    exact hnames
  obtain ⟨ts, htokens, hnames⟩ := Grammar.exists_tokens hrecord h
  exact ⟨ts, htokens, hnames r rfl⟩

/-- A card that is read as a request is one, by its first word. -/
theorem Card.parse_of_read {c : Card} {r : ReadRecord} (h : c.parse = .ok (.read r)) :
    c.isRead = true ∧ Grammar.read.parse c.text = .ok (.read r) := by
  obtain hr | hverbatim := Card.parse_cases h
  · have hkind := Option.some.inj (Grammar.grammarKind?_of_parse hr)
    unfold Grammar.ofCard at hkind hr
    split_ifs at hkind hr with hread
    · exact ⟨hread, hr⟩
    · cases hb : c.block <;> rw [hb] at hkind <;> cases hkind
  · cases hverbatim

/-! ## The file of a request -/

namespace Parameters

/-- The texts among the values. -/
def texts (ps : Parameters) : List String :=
  ps.params.flatMap fun p ↦ p.values.fields.filterMap Field.toText?

variable {raws : List Parameter} {q : Parameter} {key text : String}

theorem fields_closed (p : Parameter) : p.closed.values.fields = p.values.fields := by
  unfold Parameter.closed
  split_ifs <;> rfl

/-- The texts of the parameters are those of their fields. -/
theorem texts_of (raws : List Parameter) :
    (of raws).texts = raws.flatMap fun p ↦ p.values.fields.filterMap Field.toText? := by
  have htexts := congrArg (List.flatMap (List.filterMap Field.toText?))
    (map_closeAll (f := fun p ↦ p.values.fields) fields_closed raws)
  rwa [List.flatMap_map, List.flatMap_map] at htexts

/-- A parameter that is found by a word has the key of that word. -/
theorem exists_of_get?_of (h : (of raws).get? text = some q) :
    ∃ p ∈ raws, p.key = Classifier.keyOf text ∧ q.values.fields = p.values.fields := by
  obtain ⟨i, hi, hq⟩ := Option.bind_eq_some_iff.mp h
  obtain ⟨-, hkey⟩ := getElem?_of_lookup_zipIdx hi
  rw [List.getElem?_map] at hkey
  obtain ⟨p, hp, hpkey⟩ := Option.map_eq_some_iff.mp hkey
  refine ⟨p, List.mem_of_getElem? hp, hpkey, ?_⟩
  have hfields := congrArg (·[i]?) (map_closeAll (f := fun p ↦ p.values.fields) fields_closed raws)
  simp only [List.getElem?_map] at hfields
  have hq' : (closeAll raws)[i]? = some q := hq
  have hp' : raws[i]? = some p := hp
  rw [hq', hp'] at hfields
  exact Option.some.inj hfields

end Parameters

theorem Field.toText?_eq (f : Field) : f.toText? = f.signed.bind Value.toText? := by
  unfold toText? signed
  split_ifs
  · rcases f.value with _ | (n | x | s) <;> rfl
  · rfl

section Names

variable {raws : List Parameter} {us : List Token} {r : ReadRecord} {ts : List Token} {f : String}

/-- A list of names has the texts of its tokens. -/
theorem FieldList.IsNamed.texts_eq {l : FieldList} {ts : List Token} (h : l.IsNamed ts) :
    l.fields.map Field.toText? = ts.map fun t ↦ some t.text := by
  have hvalues : l.fields.map Field.signed = _ := h.values_eq
  calc l.fields.map Field.toText?
      = (l.fields.map Field.signed).map (·.bind Value.toText?) := by
        rw [List.map_map]
        exact List.map_congr_left fun f _ ↦ f.toText?_eq
    _ = ts.map fun t ↦ some t.text := by
        rw [hvalues, List.map_map]
        rfl

/-- The names behind the first are keywords and values of the parameters. -/
theorem AreNamed.kinds (h : AreNamed raws us) : ∀ t ∈ us, t.kind = .keyword ∨
    t.kind = .fileName ∧ ∃ p ∈ raws, t.text ∈ p.values.fields.filterMap Field.toText? := by
  induction h with
  | nil => simp
  | @cons p ps t ts us head _ ih =>
    rw [List.forall_mem_cons, List.forall_mem_append]
    refine ⟨.inl head.keyword, fun u hu ↦
      .inr ⟨head.values.kinds u hu, p, List.mem_cons_self, ?_⟩, fun u hu ↦ ?_⟩
    · have hmem : some u.text ∈ p.values.fields.map Field.toText? := by
        rw [head.values.texts_eq]
        exact List.mem_map_of_mem hu
      obtain ⟨v, hv, htext⟩ := List.mem_map.mp hmem
      exact List.mem_filterMap.mpr ⟨v, hv, htext⟩
    · obtain hkeyword | ⟨hname, q, hq, hmem⟩ := ih u hu
      · exact .inl hkeyword
      · exact .inr ⟨hname, q, List.mem_cons_of_mem _ hq, hmem⟩

/-- Words in front of `file` do not change which file is named. -/
theorem Card.fileIn?_append {ws : List String} (h : ∀ w ∈ ws, Text.sameWord w "file" = false)
    (vs : List String) : fileIn? (ws ++ vs) = fileIn? vs := by
  induction ws with
  | nil => rfl
  | cons w ws ih =>
    rw [List.cons_append, fileIn?, h w List.mem_cons_self, if_neg Bool.false_ne_true,
      ih fun v hv ↦ h v (List.mem_cons_of_mem _ hv)]

/-- A file name is no word of the vocabulary. -/
theorem Token.InRequest.not_spells_file {t : Token} (h : t.InRequest) (hkind : t.kind = .fileName) :
    Text.sameWord t.text "file" = false := by
  refine Bool.eq_false_iff.mpr fun hfile ↦ ?_
  have hword : Vocabulary.isKeyword t.text = true :=
    List.any_eq_true.mpr ⟨"file", by decide, by rwa [Text.sameWord, BEq.comm] at hfile⟩
  have hkeyword := (h.keyword (by rw [isLayout, hkind]; rfl)).mp hword
  rw [hkind] at hkeyword
  cases hkeyword

/-- Behind the word `file` stands the first value of the parameter with this key. -/
theorem AreNamed.fileIn?_eq (h : AreNamed raws us) (hkeys : (raws.map Parameter.key).Nodup)
    (hus : InRequest us) {p : Parameter} (hp : p ∈ raws) (hkey : p.key = "file")
    (hfirst : (p.values.fields[0]?).bind Field.toText? = some f) :
    Card.fileIn? (us.map Token.text) = some f := by
  induction h with
  | nil => cases hp
  | @cons q ps t ts us head tail ih =>
    rw [List.map_cons, List.nodup_cons] at hkeys
    rw [List.map_cons, List.map_append]
    rcases List.mem_cons.mp hp with rfl | hmem
    · have hfile : Text.sameWord t.text "file" = true := by
        have hlower : Text.lowerString t.text = Text.lowerString "file" :=
          head.key_eq.symm.trans (hkey.trans (by decide))
        exact beq_iff_eq.mpr (String.ofList_injective hlower)
      rw [Card.fileIn?, if_pos hfile]
      have htexts := congrArg (·[0]?) head.values.texts_eq
      simp only [List.getElem?_map] at htexts
      obtain ⟨v, hv, htext⟩ := Option.bind_eq_some_iff.mp hfirst
      rw [hv, Option.map_some, htext] at htexts
      obtain ⟨u, hu, hname⟩ := Option.map_eq_some_iff.mp htexts.symm
      obtain rfl := Option.some.inj hname
      rw [← List.head?_eq_getElem?] at hu
      obtain ⟨us', rfl⟩ := List.head?_eq_some_iff.mp hu
      rfl
    · have hother : Text.sameWord t.text "file" = false := by
        refine Bool.eq_false_iff.mpr fun hfile ↦ hkeys.1 ?_
        have hlower : Text.lowerString t.text = Text.lowerString "file" :=
          congrArg String.ofList (beq_iff_eq.mp hfile)
        have hq : q.key = p.key := head.key_eq.trans (hlower.trans (hkey.trans (by decide)).symm)
        exact hq ▸ List.mem_map_of_mem hmem
      obtain ⟨-, hrest⟩ := List.forall_mem_cons.mp hus
      obtain ⟨hts, hus'⟩ := InRequest.of_append hrest
      rw [Card.fileIn?, hother, if_neg Bool.false_ne_true, Card.fileIn?_append]
      · exact ih hkeys.2 hus' hmem
      · simp only [List.mem_map]
        rintro _ ⟨u, hu, rfl⟩
        exact (hts u hu).not_spells_file (head.values.kinds u hu)

namespace ReadRecord.IsNamed

/-- The file of a request is the name behind the word `file`. -/
theorem fileIn?_eq (h : r.IsNamed ts) (hts : InRequest ts) (hfile : r.file? = some f) :
    Card.fileIn? ((namesOf ts).map Token.text) = some f := by
  obtain ⟨t, us, raws, hnames, hread, hparameters, hkeys, hraws⟩ := h
  have hus : InRequest us :=
    fun u hu ↦ hts u (List.mem_of_mem_filter (hnames ▸ List.mem_cons_of_mem t hu))
  obtain ⟨v, hv, htext⟩ := Option.bind_eq_some_iff.mp hfile
  obtain ⟨q, hq, hfirst⟩ := Option.bind_eq_some_iff.mp hv
  rw [hparameters] at hq
  obtain ⟨p, hp, hkey, hfields⟩ := Parameters.exists_of_get?_of hq
  have hother : Text.sameWord t.text "file" = false := by
    rw [Text.sameWord, beq_iff_eq.mp hread]
    decide
  rw [hnames, List.map_cons, Card.fileIn?, hother, if_neg Bool.false_ne_true]
  refine hraws.fileIn?_eq hkeys hus hp (hkey.trans (by decide)) ?_
  change q.values.fields[0]? = some v at hfirst
  rw [← hfields, hfirst]
  exact htext

/-- The names are keywords and values of the parameters. -/
theorem kinds (h : r.IsNamed ts) (hts : InRequest ts) : ∀ t ∈ namesOf ts, t.kind = .keyword ∨
    t.kind = .fileName ∧ t.text ∈ r.parameters.texts := by
  obtain ⟨t, us, raws, hnames, hread, hparameters, -, hraws⟩ := h
  rw [hnames, List.forall_mem_cons]
  constructor
  · have ht : t ∈ namesOf ts := hnames ▸ List.mem_cons_self
    obtain ⟨hmem, hkind⟩ := List.mem_filter.mp ht
    have hword : Vocabulary.isKeyword t.text = true :=
      List.any_eq_true.mpr
        ⟨"read", by decide, by rwa [Token.spells, Text.sameWord, BEq.comm] at hread⟩
    refine .inl (((hts t hmem).keyword ?_).mp hword)
    rw [Token.isLayout]
    cases hk : t.kind <;> rw [hk] at hkind <;> first | rfl | cases hkind
  · intro u hu
    obtain hkeyword | ⟨hkind, p, hp, hmem⟩ := hraws.kinds u hu
    · exact .inl hkeyword
    · rw [hparameters, Parameters.texts_of]
      exact .inr ⟨hkind, List.mem_flatMap.mpr ⟨p, hp, hmem⟩⟩

end ReadRecord.IsNamed

end Names

end TransportDeck
