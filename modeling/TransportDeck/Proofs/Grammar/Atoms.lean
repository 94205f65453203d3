import TransportDeck.Grammar.Atoms
import TransportDeck.Proofs.Grammar.Reading
import TransportDeck.Proofs.Node.Source

/-!
# What values and classifiers read
-/

namespace TransportDeck

/-- A field that was read as this text: a token and the layout behind it. -/
def Field.ReadAs (f : Field) (text : String) : Prop :=
  ∃ token l, Parsed token l f ∧ token ++ layoutText l = text

namespace Field.ReadAs

variable {f : Field} {text : String}

theorem isRead (h : f.ReadAs text) : f.IsRead := by
  obtain ⟨token, l, hparsed, -⟩ := h
  exact hparsed.isRead

theorem source_eq (h : f.ReadAs text) : f.source = text := by
  obtain ⟨token, l, hparsed, htext⟩ := h
  exact hparsed.source_eq.trans htext

/-- A fraction with its sign apart was read from the same token. -/
theorem isRead_asSignedFraction (h : f.ReadAs text) : f.asSignedFraction.IsRead := by
  obtain ⟨token, l, hparsed, -⟩ := h
  exact hparsed.isRead_asSignedFraction

end Field.ReadAs

/-! ## Tokens that are no layout -/

namespace Token

variable {t : Token}

/-- A kind that is no layout tells that the token is none. -/
theorem isLayout_of_kind {k : TokenKind} (ht : t.kind = k) (hk : k.isLayout = false) :
    t.isLayout = false := by
  rw [isLayout, ht, hk]

theorem isLayout_of_isNumber (h : t.kind.isNumber = true) : t.isLayout = false := by
  cases hk : t.kind <;> rw [hk] at h <;> first | exact isLayout_of_kind hk rfl | cases h

theorem isLayout_of_isMark (h : Production.isMark t = true) : t.isLayout = false := by
  simp only [Production.isMark, Bool.or_eq_true, beq_iff_eq] at h
  exact h.elim (isLayout_of_kind · rfl) (isLayout_of_kind · rfl)

theorem isLayout_of_isWord (h : Production.isWord t = true) : t.isLayout = false := by
  change t.kind.isWord = true at h
  cases hk : t.kind <;> rw [hk] at h <;> first | exact isLayout_of_kind hk rfl | cases h

theorem isLayout_of_isParticleToken (h : Production.isParticleToken t = true) :
    t.isLayout = false := by
  rw [Production.isParticleToken] at h
  cases hk : t.kind <;> rw [hk] at h <;> first | exact isLayout_of_kind hk rfl | cases h

/-- No value is read from layout. -/
theorem isLayout_of_accepts {kind : ValueKind} (h : Production.accepts kind t = true) :
    t.isLayout = false := by
  cases kind with
  | int | real => exact isLayout_of_isNumber h
  | text => simpa [Production.accepts] using h

end Token

namespace ParticleList

variable {token : String} {p : ParticleList}

/-- A particle list keeps the token that it was read from. -/
theorem token_of_parse? (h : parse? token = some p) : p.token = some token := by
  unfold parse? at h
  split at h
  · obtain ⟨symbols, -, rfl⟩ := Option.map_eq_some_iff.mp h
    rfl
  · cases h

/-- A particle list is written as its token. -/
theorem text_of_parse? (h : parse? token = some p) : p.text = p.token.getD "" := by
  unfold parse? at h
  split at h
  · obtain ⟨symbols, -, rfl⟩ := Option.map_eq_some_iff.mp h
    simp [text]
  · cases h

end ParticleList

namespace Production.Reads

variable {α : Type} {c : Cursor}

/-- A value is read with the text of its token, and of the layout behind it. -/
theorem value (kind : ValueKind) (expected : String) :
    Reads (value kind expected) c fun f ts ↦ f.ReadAs (textOf ts) := by
  refine .current ?_
  split
  · exact unexpected
  · next t ht =>
    obtain ⟨hhead, -⟩ := Option.filter_eq_some_iff.mp ht
    obtain ⟨us, hrest⟩ := List.head?_eq_some_iff.mp hhead
    split
    · exact unexpected
    · next f hf =>
      refine (advance hrest).bind ?_
      rintro _ _ c' - rfl
      refine layout.bind fun l ts c'' _ hl ↦ .pure ⟨t.text, l, ?_, ?_⟩
      · exact (Field.parsed_of_parse? hf).setLayout l
      · simp [hl]

/-- A word is read with the text of its token, or not at all. -/
theorem word? (p : Token → Bool) : Reads (word? p) c fun o ts ↦
    (∀ f ∈ o, f.ReadAs (textOf ts)) ∧ (o = none → ts = []) := by
  refine .current ?_
  split
  · next t ht =>
    obtain ⟨hhead, -⟩ := Option.filter_eq_some_iff.mp ht
    obtain ⟨us, hrest⟩ := List.head?_eq_some_iff.mp hhead
    refine (advance hrest).bind ?_
    rintro _ _ c' - rfl
    refine .pure ⟨?_, by simp [Field.parse?, Field.readValue?]⟩
    intro f hf
    exact ⟨t.text, none, Field.parsed_of_parse? hf, by simp [layoutText]⟩
  · exact .pure ⟨by simp, by simp⟩

/-- The number in a name is read with the text of its token, or not at all. -/
theorem nameNumber? : Reads nameNumber? c fun o ts ↦
    (∀ f ∈ o, f.ReadAs (textOf ts)) ∧ (o = none → ts = []) := by
  refine .current ?_
  split
  · exact .pure ⟨by simp, by simp⟩
  · next t ht =>
    obtain ⟨hhead, -⟩ := Option.filter_eq_some_iff.mp ht
    obtain ⟨us, hrest⟩ := List.head?_eq_some_iff.mp hhead
    split
    · next f hf =>
      refine (advance hrest).bind ?_
      rintro _ _ c' - rfl
      refine .pure ⟨?_, by simp⟩
      rintro _ ⟨⟩
      exact ⟨t.text, none, (Field.parsed_of_parse? hf).neverPad, by simp [layoutText]⟩
    · exact .pure ⟨by simp, by simp⟩

/-- A particle list is read with the text of its token, or not at all. -/
theorem particles? : Reads particles? c fun o ts ↦
    (∀ p ∈ o, p.text = p.token.getD "") ∧ (o.bind (·.token)).getD "" = textOf ts := by
  refine .currentKind ?_
  split_ifs with hcolon
  · obtain ⟨t, hhead, hkind⟩ := Option.map_eq_some_iff.mp (beq_iff_eq.mp hcolon)
    obtain ⟨us, hrest⟩ := List.head?_eq_some_iff.mp hhead
    refine spells hrest hkind rfl fun ht ↦ ?_
    refine .get ((advance hrest).bind ?_)
    rintro _ _ c' - rfl
    refine (takeWhile _).bind ?_
    rintro taken _ c'' - ⟨rfl, -⟩
    dsimp only
    split
    · next p hp =>
      refine .pure ⟨?_, ?_⟩
      · rintro _ ⟨⟩
        exact ParticleList.text_of_parse? hp
      · rw [Option.bind_some, ParticleList.token_of_parse? hp]
        simp [ht]
    · exact throw
  · exact .pure ⟨by simp, rfl⟩

/-- What is read or left out has the text of the tokens that were read. -/
theorem fieldSource_of {o : Option Field} {ts : List Token}
    (h : (∀ f ∈ o, f.ReadAs (textOf ts)) ∧ (o = none → ts = [])) : fieldSource o = textOf ts := by
  cases o with
  | none => rw [h.2 rfl]; rfl
  | some f => exact (h.1 f rfl).source_eq

/-- A classifier has the text of all its tokens, and of the layout behind them. -/
theorem classifier (g : Grammar) : Reads (classifier g) c fun cl ts ↦
    cl.IsRead ∧ cl.source = textOf ts := by
  unfold Production.classifier
  split_ifs
  · exact unexpected
  refine (word? _).bind fun modifier ms c₁ _ hmodifier ↦ ?_
  refine (word? _).bind fun name ns c₂ _ hname ↦ ?_
  cases name with
  | none => exact unexpected
  | some name =>
    refine nameNumber?.bind fun number is c₃ _ hnumber ↦ ?_
    refine particles?.bind fun particles ps c₄ _ hparticles ↦ ?_
    refine layout.bind fun l ls c₅ _ hl ↦ .pure ⟨⟨?_, ?_, ?_, hparticles.1⟩, ?_⟩
    · exact fun f hf ↦ (hmodifier.1 f hf).isRead
    · exact (hname.1 name rfl).isRead
    · exact fun f hf ↦ (hnumber.1 f hf).isRead
    · simp only [Classifier.source, fieldSource_of hmodifier, fieldSource_of hnumber,
        (hname.1 name rfl).source_eq, hparticles.2, hl, textOf_append, List.append_nil,
        String.append_assoc]

end Production.Reads

end TransportDeck
