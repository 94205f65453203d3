import TransportDeck.Proofs.Grammar.ParameterRuns
import TransportDeck.Proofs.Grammar.Records
import TransportDeck.Proofs.Node.Spellings

/-!
# Looking up what is written

The parameters of a record are read from its tokens, one behind the other.  The name of each of them
stands in the text of the record, and a look-up with this name finds the parameter if the name is
spelled like its key.
-/

namespace TransportDeck

open Text

/-! ## Spelled tokens -/

namespace Number

/-- An integer without a sign is digits. -/
theorem isDigit_of_readInt? {text : String} (hread : (readInt? text).isSome = true)
    (hsign : ∀ c ∈ text.toList.head?, Lexer.isSign c = false) :
    text ≠ "" ∧ ∀ c ∈ text.toList, c.isDigit = true := by
  have hunsigned : Decimal.readSign text.toList = (false, text.toList) := by
    unfold Decimal.readSign
    split
    · next heq => cases hsign '-' (by rw [heq]; rfl)
    · next heq => cases hsign '+' (by rw [heq]; rfl)
    · rfl
  unfold readInt? at hread
  rw [hunsigned] at hread
  dsimp only at hread
  split_ifs at hread with hbad
  · cases hread
  all_goals
    simp only [Bool.or_eq_true, Bool.not_eq_true', not_or, Bool.not_eq_false] at hbad
    exact ⟨by rintro rfl; exact hbad.1 rfl, List.all_eq_true.mp hbad.2⟩

end Number

namespace Production

variable {c : Cursor} {g : Grammar}

/-- Every token may stand in a name as it is spelled. -/
def Spelled (ts : List Token) : Prop := ∀ t ∈ ts, t.SpellsName

theorem Spelled.of_append {ts us : List Token} (h : Spelled (ts ++ us)) : Spelled ts ∧ Spelled us :=
  List.forall_mem_append.mp h

theorem spelled_word? (p : Token → Bool) : Reads (word? p) c fun o ts ↦ ∀ f ∈ o,
    ∃ t, ts = [t] ∧ p t = true ∧ f.source = t.text ∧ f.toText? = some t.text := by
  refine .current ?_
  split
  · next t ht =>
    obtain ⟨hhead, hp⟩ := Option.filter_eq_some_iff.mp ht
    obtain ⟨us, hrest⟩ := List.head?_eq_some_iff.mp hhead
    refine (Reads.advance hrest).bind ?_
    rintro _ _ c' - rfl
    refine .pure ?_
    rintro _ ⟨⟩
    exact ⟨t, rfl, hp, by simp [Field.source, layoutText], rfl⟩
  · exact .pure (by simp)

theorem spelled_nameNumber? : Reads nameNumber? c fun o _ ↦ ∀ f ∈ o, f.source ≠ "" ∧
    (∀ d ∈ f.source.toList, d.isDigit = true) ∧ f.toInt?.isSome = true ∧
      f.toInt? = Number.readInt? f.source := by
  refine .current ?_
  split
  · exact .pure (by simp)
  · next t ht =>
    obtain ⟨hhead, hnumber⟩ := Option.filter_eq_some_iff.mp ht
    obtain ⟨us, hrest⟩ := List.head?_eq_some_iff.mp hhead
    split
    · next f hf =>
      refine (Reads.advance hrest).bind ?_
      rintro _ _ c' - rfl
      refine .pure ?_
      rintro _ ⟨⟩
      obtain ⟨v, hv, hvalue⟩ := Option.map_eq_some_iff.mp hf
      obtain ⟨n, hn, rfl⟩ := Option.map_eq_some_iff.mp hv
      have hsource : f.neverPad.source = t.text :=
        (Field.parsed_of_parse? hf).source_eq.trans (by simp [layoutText])
      have htoInt : f.neverPad.toInt? = some n := by
        rw [← hvalue]
        rfl
      have hsign : ∀ c ∈ t.text.toList.head?, Lexer.isSign c = false := by
        obtain ⟨-, hunsigned⟩ := Bool.and_eq_true_iff.mp hnumber
        unfold isUnsigned at hunsigned
        cases hlist : t.text.toList with
        | nil => simp
        | cons d ds =>
          rw [hlist] at hunsigned
          rintro _ ⟨⟩
          simpa using hunsigned
      rw [hsource, htoInt, hn]
      have hread : (Number.readInt? t.text).isSome = true := by
        rw [hn]
        rfl
      obtain ⟨hne, hdigits⟩ := Number.isDigit_of_readInt? hread hsign
      exact ⟨hne, hdigits, rfl, rfl⟩
    · exact .pure (by simp)

theorem isBlank_of_textOf {ts : List Token} (h : Spelled ts)
    (hparticles : ∀ t ∈ ts, isParticleToken t = true) :
    ∀ d ∈ (textOf ts).toList, isBlank d = false := by
  induction ts with
  | nil => simp
  | cons t ts ih =>
    obtain ⟨ht, hts⟩ := List.forall_mem_cons.mp h
    obtain ⟨ht', hts'⟩ := List.forall_mem_cons.mp hparticles
    rw [textOf_cons, String.toList_append, List.forall_mem_append]
    exact ⟨Lexer.isBlank_of_isParticleToken ht ht', ih hts hts'⟩

theorem spelled_particles? :
    Reads particles? c fun o ts ↦ Spelled ts → ∀ p ∈ o, ∃ body, p.token = some (":" ++ body) ∧
      (∀ d ∈ body.toList, isBlank d = false) ∧ ParticleList.parse? (":" ++ body) = some p := by
  refine .currentKind ?_
  split_ifs with hcolon
  · obtain ⟨t, hhead, -⟩ := Option.map_eq_some_iff.mp (beq_iff_eq.mp hcolon)
    obtain ⟨us, hrest⟩ := List.head?_eq_some_iff.mp hhead
    refine .get ((Reads.advance hrest).bind ?_)
    rintro _ _ c' - rfl
    refine (Reads.takeWhile _).bind ?_
    rintro taken _ c'' - ⟨rfl, hparticles⟩
    dsimp only
    split
    · next p hp =>
      refine .pure ?_
      rintro hspelled _ ⟨⟩
      rw [List.append_nil] at hspelled
      refine ⟨textOf taken, ParticleList.token_of_parse? hp, ?_, hp⟩
      exact isBlank_of_textOf hspelled.of_append.2 hparticles
    · exact .throw
  · exact .pure (by simp)

theorem spelled_classifier (g : Grammar) :
    Reads (classifier g) c fun cl ts ↦ Spelled ts → cl.IsWritten := by
  unfold Production.classifier
  split_ifs
  · exact .unexpected
  refine (spelled_word? _).bind fun modifier ms c₁ _ hmodifier ↦ ?_
  refine (spelled_word? _).bind fun name ns c₂ _ hname ↦ ?_
  cases name with
  | none => exact .unexpected
  | some name =>
    refine spelled_nameNumber?.bind fun number is c₃ _ hnumber ↦ ?_
    refine spelled_particles?.bind fun particles ps c₄ _ hparticles ↦ ?_
    refine Reads.layout.bind fun l ls c₅ _ _ ↦ .pure fun hspelled ↦ ?_
    obtain ⟨hms, hspelled⟩ := hspelled.of_append
    obtain ⟨hns, hspelled⟩ := hspelled.of_append
    obtain ⟨-, hspelled⟩ := hspelled.of_append
    obtain ⟨hps, -⟩ := hspelled.of_append
    obtain ⟨t, rfl, hword, hsource, htext⟩ := hname name rfl
    have ht : t.SpellsName := hns t List.mem_cons_self
    refine ⟨fun f hf ↦ ?_, htext.trans (congrArg some hsource.symm), ?_, hnumber, hparticles hps⟩
    · obtain ⟨u, rfl, hmark, hfsource, -⟩ := hmodifier f hf
      have hu : u.SpellsName := hms u List.mem_cons_self
      simp only [isMark, Bool.or_eq_true, beq_iff_eq] at hmark
      rw [hfsource]
      exact (hu.mark hmark).imp (fun h ↦ String.toList_inj.mp (h.trans rfl)) fun h ↦
        String.toList_inj.mp (h.trans rfl)
    · exact hsource ▸ ht.word hword

theorem spelled_parameter (g : Grammar) :
    Reads (parameter g) c fun p ts ↦ Spelled ts → p.classifier.IsWritten := by
  refine (spelled_classifier g).bind fun cl cs c₁ _ hcl ↦ ?_
  refine (Reads.separator? g).bind fun separator ss c₂ _ _ ↦ ?_
  refine (Reads.values g .int).bind fun vs ts c₃ _ _ ↦ ?_
  split_ifs
  · exact .unexpected
  · exact .pure fun hspelled ↦ hcl hspelled.of_append.1

/-! ## Records -/

end Production

/-- The parameters of a record, if it has any. -/
def Record.parameters : Record → Parameters
  | cell c => c.parameters
  | data d => d.parameters
  | read r => r.parameters
  | surface _ | verbatim _ => .empty

namespace Production

/-- The parameters of a record are read from some of its tokens. -/
def HasLists (Q : Parameter → List Token → Prop) (ps : Parameters) (ts : List Token) : Prop :=
  ∃ front us back, ts = front ++ us ++ back ∧ ps.Lists Q us

variable {Q : Parameter → List Token → Prop} {ps : Parameters} {ts us : List Token}

theorem HasLists.append_left (h : HasLists Q ps us) (ts : List Token) :
    HasLists Q ps (ts ++ us) := by
  obtain ⟨front, vs, back, rfl, hps⟩ := h
  exact ⟨ts ++ front, vs, back, by simp, hps⟩

theorem lists_parameters_finish {α : Type} {make : Parameters → α} {R : α → List Token → Prop}
    (h : ∀ c, Reads (parameter g) c Q) (hmake : ∀ ps ts, HasLists Q ps ts → R (make ps) ts) :
    ReadsOrReports (do
      let ps ← parameters g
      finish
      return make ps) c R := by
  refine (lists_parameters h c).bind fun ps us c' _ _ ↦ ?_
  refine Reads.finish.bindReports fun _ es c'' _ _ _ ↦ ?_
  refine (Reads.pure fun hps ↦ hmake ps _ ?_).orReports
  exact ⟨[], us, es ++ [], by simp, hps⟩

theorem lists_cell (h : ∀ c, Reads (parameter g) c Q) :
    ReadsOrReports (cell g) c fun r ts ↦ HasLists Q r.parameters ts := by
  refine Reads.layout.bindReports fun _ ls c₁ _ _ _ ↦ ?_
  refine (Reads.value _ _).bindReports fun _ ns c₂ _ _ _ ↦ ?_
  refine Reads.refuseLike.bindReports fun _ rs c₃ _ _ _ ↦ ?_
  refine (Reads.value _ _).bindReports fun material ms c₄ _ _ _ ↦ ?_
  refine (Reads.density? material).bindReports fun _ ds c₅ _ _ _ ↦ ?_
  refine (Reads.geometry g).bindReports fun _ gs c₆ _ _ _ ↦ ?_
  exact lists_parameters_finish h fun ps ts hps ↦
    ((((((hps.append_left gs).append_left ds).append_left ms).append_left rs).append_left
      ns).append_left ls)

theorem lists_data (h : ∀ c, Reads (parameter g) c Q) :
    ReadsOrReports (data g) c fun r ts ↦ HasLists Q r.parameters ts := by
  refine Reads.layout.bindReports fun _ ls c₁ _ _ _ ↦ ?_
  refine (Reads.classifier g).bindReports fun cl cs c₂ _ _ _ ↦ ?_
  refine (Reads.keyword? g).bindReports fun _ ks c₃ _ _ _ ↦ ?_
  refine (Reads.body g cl).bindReports fun _ bs c₄ _ _ _ ↦ ?_
  exact lists_parameters_finish h fun ps ts hps ↦
    (((hps.append_left bs).append_left ks).append_left cs).append_left ls

theorem lists_read (h : ∀ c, Reads (parameter g) c Q) :
    ReadsOrReports (read g) c fun r ts ↦ HasLists Q r.parameters ts := by
  refine Reads.layout.bindReports fun _ ls c₁ _ _ _ ↦ .get ?_
  split_ifs
  · refine (Reads.value _ _).bindReports fun _ ks c₂ _ _ _ ↦ ?_
    exact lists_parameters_finish h fun ps ts hps ↦ (hps.append_left ks).append_left ls
  · exact Reads.unexpected.orReports

theorem lists_record (h : ∀ c, Reads (parameter g) c Q) :
    ReadsOrReports (record g) c fun r ts ↦ HasLists Q r.parameters ts :=
  .record_of (fun _ ↦ lists_cell h)
    (fun _ ↦ (ReadsOrReports.surface g).mono fun _ ts _ ↦ ⟨ts, [], [], by simp, .empty⟩)
    (fun _ ↦ lists_data h) fun _ ↦ lists_read h

end Production

/-! ## Look-ups -/

namespace Parameters

variable {Q : Parameter → List Token → Prop} {ps : Parameters} {raws : List Parameter}
  {p : Parameter} {text : String}

theorem classifier_closed (p : Parameter) : p.closed.classifier = p.classifier := by
  unfold Parameter.closed
  split_ifs <;> rfl

/-- A look-up goes through the keys. -/
theorem get?_of (hkeys : (raws.map Parameter.key).Nodup) {i : Nat} {key : String}
    (hi : (raws.map Parameter.key)[i]? = some key) (htext : Classifier.keyOf text = key) :
    (of raws).get? text = (closeAll raws)[i]? := by
  rw [get?, find?, htext]
  change (List.lookup key (raws.map Parameter.key).zipIdx).bind _ = _
  rw [(lookup_zipIdx_eq_some_iff hkeys).mpr hi]
  rfl

theorem get?_of_notMem (h : Classifier.keyOf text ∉ raws.map Parameter.key) :
    (of raws).get? text = none := by
  have hnone : (of raws).place? (Classifier.keyOf text) = none := by
    rw [← Option.not_isSome_iff_eq_none, isSome_place?_of]
    simpa using h
  rw [get?, find?, hnone]
  rfl

/-- The parameter is read from these tokens, and its name is spelled as they are. -/
def IsSpelled (p : Parameter) (ts : List Token) : Prop :=
  p.source = textOf ts ∧ (Production.Spelled ts → p.classifier.IsWritten)

theorem exists_raw {i : Nat} (h : (closeAll raws)[i]? = some p) :
    ∃ raw, raws[i]? = some raw ∧ raw.classifier = p.classifier := by
  have hclassifiers := congrArg (·[i]?) (map_closeAll classifier_closed raws)
  simp only [List.getElem?_map, h, Option.map_some] at hclassifiers
  exact Option.map_eq_some_iff.mp hclassifiers.symm

namespace Lists

variable {ts : List Token}

theorem exists_tokens {tss : List (List Token)} (h : List.Forall₂ Q raws tss) (hp : p ∈ raws) :
    ∃ us ∈ tss, Q p us := by
  induction h with
  | nil => cases hp
  | @cons q us raws tss head _ ih =>
    rcases List.mem_cons.mp hp with rfl | hp
    · exact ⟨us, List.mem_cons_self, head⟩
    · obtain ⟨vs, hvs, hq⟩ := ih hp
      exact ⟨vs, List.mem_cons_of_mem us hvs, hq⟩

/-- The name of a parameter stands in the text, and it is found by this name if that is spelled like
the key. -/
theorem get?_of_spelling (h : ps.Lists IsSpelled ts) (hts : Production.Spelled ts)
    (hp : p ∈ ps.params) :
    (∃ before behind, textOf ts = before ++ p.classifier.spelling ++ behind) ∧
      ∀ text, lowerString text = lowerString p.classifier.spelling →
        ps.get? text = if p.classifier.isPlain then some p else none := by
  obtain ⟨raws, tss, rfl, hkeys, rfl, hraws⟩ := h
  have hwritten : ∀ q ∈ raws, q.classifier.IsWritten := by
    intro q hq
    obtain ⟨vs, hvs, -, hwritten⟩ := exists_tokens hraws hq
    exact hwritten fun t ht ↦ hts t (List.mem_flatten_of_mem hvs ht)
  obtain ⟨i, hi⟩ := List.getElem?_of_mem hp
  change (closeAll raws)[i]? = some p at hi
  obtain ⟨raw, hraw, hclassifier⟩ := exists_raw hi
  have hmem : raw ∈ raws := List.mem_of_getElem? hraw
  rw [← hclassifier]
  constructor
  · obtain ⟨us, hus, hsource, -⟩ := exists_tokens hraws hmem
    obtain ⟨front, back, rfl⟩ := List.append_of_mem hus
    refine ⟨textOf front.flatten, layoutText raw.classifier.layout ++
      (layoutText raw.separator ++ raw.values.source) ++ textOf back.flatten, ?_⟩
    rw [List.flatten_append, List.flatten_cons, textOf_append, textOf_append, ← hsource,
      Parameter.source, Classifier.source_eq]
    simp only [String.append_assoc]
  · intro text htext
    have hkeyOf := Classifier.keyOf_congr htext
    split_ifs with hplain
    · have hkey : (raws.map Parameter.key)[i]? = some raw.key := by
        rw [List.getElem?_map, hraw]
        rfl
      rw [get?_of hkeys hkey (hkeyOf.trans ((hwritten raw hmem).keyOf_eq_key hplain)), hi]
    · refine get?_of_notMem fun hthere ↦ hplain ?_
      obtain ⟨q, hq, hkey⟩ := List.mem_map.mp hthere
      exact (hwritten raw hmem).isPlain_of_keyOf_eq (hwritten q hq) (hkeyOf.symm.trans hkey.symm)

end Lists

end Parameters

/-- The name of a parameter stands in the text of its record, and a look-up with this name in any
letter case finds the parameter if and only if it has no mark and its number is spelled as it is
printed. -/
theorem Card.get?_spelling {c : Card} {r : Record} (h : c.parse = .ok r) {p : Parameter}
    (hp : p ∈ r.parameters.params) :
    (∃ before behind, c.text = before ++ p.classifier.spelling ++ behind) ∧
      ∀ text, lowerString text = lowerString p.classifier.spelling →
        r.parameters.get? text = if p.classifier.isPlain then some p else none := by
  obtain hparse | rfl := Card.parse_cases h
  · have hparameter (c' : Cursor) :
        Production.Reads (Production.parameter (Grammar.ofCard c)) c' Parameters.IsSpelled :=
      ((Production.Reads.parameter _).mono fun _ _ hread ↦ hread.2).and
        (Production.spelled_parameter _)
    obtain ⟨_, htokens, front, ms, back, rfl, hlists⟩ :=
      Grammar.exists_tokens (fun _ ↦ Production.lists_record hparameter) hparse
    have hspelled : Production.Spelled (front ++ ms ++ back) := Lexer.spellsName_of_tokenize htokens
    have htext : textOf (front ++ ms ++ back) = c.text :=
      (Lexer.textOf_tokensFrom htokens).trans String.ofList_toList
    obtain ⟨⟨before, behind, hms⟩, hfound⟩ :=
      hlists.get?_of_spelling hspelled.of_append.1.of_append.2 hp
    refine ⟨⟨textOf front ++ before, behind ++ textOf back, ?_⟩, hfound⟩
    rw [← htext, textOf_append, textOf_append, hms]
    simp only [String.append_assoc]
  · cases hp

theorem Card.exists_first_parameter {c : Card} (test : Parameters → Parameter → Bool)
    (h : c.parse.toOption.any (fun r ↦ r.parameters.params.head?.any (test r.parameters)) = true) :
    ∃ r p, c.parse = .ok r ∧ p ∈ r.parameters.params ∧ test r.parameters p = true := by
  obtain ⟨r, hr, hany⟩ := Except.exists_of_any h
  cases hp : r.parameters.params.head? with
  | none =>
    rw [hp] at hany
    cases hany
  | some p =>
    rw [hp] at hany
    exact ⟨r, p, hr, List.mem_of_head? hp, hany⟩

/-- Particles may stand in any order. -/
theorem Card.get?_spelling_of_particles :
    ∃ (c : Card) (r : Record) (p : Parameter), c.parse = .ok r ∧ p ∈ r.parameters.params ∧
      p.classifier.spelling = "IMP:P,N" ∧ r.parameters.get? "imp:p,n" = some p := by
  obtain ⟨r, p, hr, hp, htest⟩ :=
    exists_first_parameter (c := ⟨.cell, ["1 0 -1 IMP:P,N=1"], "deck.i", 1, 0⟩)
      (fun _ p ↦ p.classifier.spelling == "IMP:P,N" && p.classifier.isPlain) (by decide +kernel)
  rw [Bool.and_eq_true, beq_iff_eq] at htest
  have hlower : lowerString "imp:p,n" = lowerString p.classifier.spelling := by
    rw [htest.1]
    decide
  have hfound := (get?_spelling hr hp).2 "imp:p,n" hlower
  rw [if_pos htest.2] at hfound
  exact ⟨_, r, p, hr, hp, htest.1, hfound⟩

/-- A parameter with a mark is not found by the name it was written with. -/
theorem Card.get?_spelling_ne_of_mark : ∃ (c : Card) (r : Record) (p : Parameter), c.parse = .ok r ∧
    p ∈ r.parameters.params ∧ p.classifier.spelling = "*fill" ∧
      r.parameters.get? "*fill" = none := by
  obtain ⟨r, p, hr, hp, htest⟩ :=
    exists_first_parameter (c := ⟨.cell, ["1 0 -1 *fill=1"], "deck.i", 1, 0⟩)
      (fun ps p ↦ p.classifier.spelling == "*fill" && (ps.get? "*fill").isNone) (by decide +kernel)
  rw [Bool.and_eq_true, beq_iff_eq, Option.isNone_iff_eq_none] at htest
  exact ⟨_, r, p, hr, hp, htest.1, htest.2⟩

end TransportDeck
