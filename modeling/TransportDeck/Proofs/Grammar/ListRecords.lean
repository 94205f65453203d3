import TransportDeck.Proofs.Grammar.ListTexts
import TransportDeck.Proofs.Grammar.MaterialReading

/-!
# How records with lists are read

A record with a list is read as what stands in front of the list, layout, and the list.  What stands
in front is read the same whatever list follows, and whatever layout there is between the two.
-/

namespace TransportDeck

/-- The layout in front of the values. -/
def DataRecord.room (d : DataRecord) : Option Layout :=
  match d.keyword with
  | some k => k.layout
  | none => d.classifier.layout

namespace Production

open WrittenItem

variable {α β : Type} {p : Production α} {f : α → Production β} {c c' : Cursor} {t : Token}
  {ts us vs ws ks ls : List Token}

/-! ## In front of layout -/

/-- The same token is first, or layout is. -/
def StartAlike (us vs : List Token) : Prop :=
  (∃ t, us.head? = some t ∧ vs.head? = some t) ∨
    (∃ t ∈ us.head?, t.isLayout = true) ∧ ∃ t ∈ vs.head?, t.isLayout = true

namespace StartAlike

/-- The same tokens in front of two lists let them start alike. -/
theorem append (h : StartAlike us vs) (ts : List Token) : StartAlike (ts ++ us) (ts ++ vs) := by
  cases ts with
  | nil => exact h
  | cons t ts => exact .inl ⟨t, rfl, rfl⟩

/-- A test that no layout passes does not tell them apart. -/
theorem filter_eq {q : Token → Bool} (h : StartAlike us vs)
    (hq : ∀ t, t.isLayout = true → q t = false) : us.head?.filter q = vs.head?.filter q := by
  rcases h with ⟨t, hu, hv⟩ | ⟨⟨t, hu, ht⟩, v, hv, hlayout⟩
  · rw [hu, hv]
  · rw [show us.head? = some t from hu, show vs.head? = some v from hv, Option.filter_some,
      Option.filter_some, hq t ht, hq v hlayout]
    rfl

/-- A test that layout does not pass cannot tell such lists apart at their start. -/
theorem forall_head {q : Token → Bool} (h : StartAlike us vs)
    (hq : ∀ t, t.isLayout = true → q t = false) (hvs : ∀ t ∈ vs.head?, q t = false) :
    ∀ t ∈ us.head?, q t = false := by
  intro u hu
  rcases h with ⟨t, hu', hv⟩ | ⟨⟨t, hu', ht⟩, -⟩
  · obtain rfl : u = t := Option.some.inj (hu.symm.trans hu')
    exact hvs u hv
  · obtain rfl : u = t := Option.some.inj (hu.symm.trans hu')
    exact hq u ht

end StartAlike

/-- A run that stops in front of layout is the same in front of other layout. -/
def Halts (p : Production α) : Prop := ∀ ⦃c c' : Cursor⦄ ⦃a : α⦄, p.run c = (.ok a, c') →
  ∃ ts, c.rest = ts ++ c'.rest ∧ ∀ us, StartAlike us c'.rest → Gives p (ts ++ us) a us

namespace Halts

theorem pure {a : α} : Halts (pure a : Production α) := by
  rintro c _ _ ⟨⟩
  exact ⟨[], rfl, fun us _ ↦ .pure⟩

theorem throw {e : SyntaxError} : Halts (throw e : Production α) := by
  rintro _ _ _ ⟨⟩

theorem unexpected {expected : String} : Halts (unexpected expected : Production α) := by
  rintro _ _ _ ⟨⟩

/-- A run halts at layout if both of its halves do. -/
theorem bind (hp : Halts p) (hf : ∀ a, Halts (f a)) : Halts (p >>= f) := by
  intro c c'' b h
  obtain ⟨a, c', hrun, hrest⟩ := run_bind_ok h
  obtain ⟨ts, hts, hgives⟩ := hp hrun
  obtain ⟨us, hus, hgives'⟩ := hf a hrest
  refine ⟨ts ++ us, by rw [hts, hus, List.append_assoc], fun vs hvs ↦ ?_⟩
  rw [List.append_assoc]
  exact (hgives (us ++ vs) (hus ▸ hvs.append us)).bind (hgives' vs hvs)

/-- What goes on with the next token, if it does so for tokens only that pass a test which no layout
passes. -/
theorem current {q : Token → Bool} (hq : ∀ t, t.isLayout = true → q t = false)
    {f : Option Token → Production β} (hf : ∀ o, Halts (f o))
    (hsame : ∀ o o', o.filter q = o'.filter q → f o = f o') : Halts (current? >>= f) := by
  intro c c' b h
  obtain ⟨ts, hts, hgives⟩ := hf c.stream.current? h
  refine ⟨ts, hts, fun us hus ↦ Gives.current.bind ?_⟩
  have hfilter := (hus.append ts).filter_eq hq
  rw [← hts, ← c.current?_eq_head?] at hfilter
  rw [hsame _ _ hfilter]
  exact hgives us hus

theorem advance : Halts advance := by
  rintro c _ _ ⟨⟩
  have hrest : c.next.rest = c.rest.tail := c.stream.rest_advance
  change ∃ ts, c.rest = ts ++ c.next.rest ∧ ∀ us, StartAlike us c.next.rest → _
  rw [hrest]
  cases c.rest with
  | nil =>
    refine ⟨[], rfl, fun us hus ↦ ?_⟩
    rcases hus with ⟨t, -, ht⟩ | ⟨-, t, ht, -⟩ <;> cases ht
  | cons t ts => exact ⟨[t], rfl, fun us _ ↦ .advance⟩

/-- A run of tokens that layout ends halts at layout. -/
theorem takeWhile {q : Token → Bool} (hq : ∀ t, t.isLayout = true → q t = false) :
    Halts (takeWhile q) := by
  rintro c _ _ ⟨⟩
  refine ⟨_, c.stream.takeWhile_append q, fun us hus ↦
    .takeWhile_append (c.stream.forall_takeWhile q) (hus.forall_head hq ?_)⟩
  exact c.stream.current?_takeWhile q

/-- Where the place does not matter for what is given. -/
theorem currentSpan {f : Span → Production α} (hf : ∀ span, Halts (f span))
    (hsame : ∀ span span' c c' a, (f span).run c = (.ok a, c') → (f span').run c = (.ok a, c')) :
    Halts (currentSpan >>= f) := by
  intro c c' a h
  obtain ⟨ts, hts, hgives⟩ := hf c.stream.currentSpan h
  refine ⟨ts, hts, fun us hus ↦ .currentSpan_bind fun span d hd ↦ ?_⟩
  obtain ⟨d', hrun, hrest⟩ := hgives us hus d hd
  exact ⟨d', hsame _ span _ _ _ hrun, hrest⟩

/-- A word halts at the layout behind it. -/
theorem word? {q : Token → Bool} (hq : ∀ t, t.isLayout = true → q t = false) : Halts (word? q) := by
  refine current hq (fun o ↦ ?_) fun o o' h ↦ by rw [h]
  split
  · exact advance.bind fun _ ↦ pure
  · exact pure

theorem isMark_of_isLayout (h : t.isLayout = true) : isMark t = false := by
  obtain ⟨kind, text, span⟩ := t
  cases kind <;> first | rfl | cases h

theorem isWord_of_isLayout (h : t.isLayout = true) : isWord t = false := by
  obtain ⟨kind, text, span⟩ := t
  cases kind <;> first | rfl | cases h

theorem isParticleToken_of_isLayout (h : t.isLayout = true) : isParticleToken t = false := by
  obtain ⟨kind, text, span⟩ := t
  cases kind <;> first | rfl | cases h

theorem nameNumber? : Halts nameNumber? := by
  refine current (q := fun t ↦ t.kind.isNumber && isUnsigned t) (fun t ht ↦ ?_) (fun o ↦ ?_)
    fun o o' h ↦ by rw [h]
  · rw [← Bool.not_eq_true, Bool.and_eq_true]
    rintro ⟨hnumber, -⟩
    rw [Token.isLayout_of_isNumber hnumber] at ht
    cases ht
  · split
    · exact pure
    · split
      · exact advance.bind fun _ ↦ pure
      · exact pure

/-- Whether the next token is of a kind that no layout has. -/
theorem currentKind {kind : TokenKind} {p p' : Production β}
    (hkind : ∀ t : Token, t.isLayout = true → t.kind ≠ kind) (hp : Halts p) (hp' : Halts p') :
    Halts (currentKind? >>= fun k ↦ if k == some kind then p else p') := by
  have hsame (o : Option Token) :
      (o.map (·.kind) == some kind) = (o.filter (·.kind == kind)).isSome := by
    cases o with
    | none => rfl
    | some t => by_cases ht : t.kind = kind <;> simp [ht]
  have hhalts : Halts (current? >>= fun o ↦ if o.map (·.kind) == some kind then p else p') := by
    refine current (q := (·.kind == kind)) (fun t ht ↦ by simpa using hkind t ht)
      (fun o ↦ ?_) fun o o' h ↦ ?_
    · split_ifs
      · exact hp
      · exact hp'
    · rw [hsame, hsame, h]
  exact hhalts

theorem particles? : Halts particles? := by
  refine currentKind (fun t ht hkind ↦ ?_) (currentSpan (fun span ↦ advance.bind fun _ ↦
    (takeWhile fun t ht ↦ isParticleToken_of_isLayout ht).bind fun taken ↦ ?_)
      fun span span' c c' a h ↦ ?_) pure
  · rw [Token.isLayout_of_kind hkind rfl] at ht
    cases ht
  · dsimp only
    split
    · exact pure
    · exact throw
  · obtain ⟨⟨⟩, c₁, hadvance, h⟩ := run_bind_ok h
    obtain ⟨taken, c₂, htaken, h⟩ := run_bind_ok h
    refine (run_bind_of_ok hadvance).trans ((run_bind_of_ok htaken).trans ?_)
    dsimp only at h ⊢
    split at h
    · exact h
    · cases h

end Halts

/-! ## Classifiers -/

/-- A classifier without the layout behind it. -/
def naming : Production Classifier := do
  let modifier ← word? isMark
  match ← word? isWord with
  | none => Production.unexpected "record name"
  | some name => do
    let number ← nameNumber?
    let particles ← particles?
    return ⟨modifier, name, number, particles, none⟩

/-- A name is read up to the layout behind it. -/
theorem halts_naming : Halts naming := by
  refine (Halts.word? fun t ht ↦ Halts.isMark_of_isLayout ht).bind fun modifier ↦
    (Halts.word? fun t ht ↦ Halts.isWord_of_isLayout ht).bind fun name ↦ ?_
  cases name with
  | none => exact .unexpected
  | some name => exact Halts.nameNumber?.bind fun _ ↦ Halts.particles?.bind fun _ ↦ .pure

/-- A classifier is its name and the layout behind it. -/
theorem classifier_eq_naming :
    classifier .data = (do let cl ← naming; return { cl with layout := ← Production.layout }) := by
  have hallows : Grammar.data.allows .classifier = true := by decide
  unfold classifier naming
  rw [hallows]
  simp only [Bool.not_true, Bool.false_eq_true, if_false, bind_assoc]
  refine congrArg (word? isMark >>= ·)
    (funext fun modifier ↦ congrArg (word? isWord >>= ·) (funext fun name ↦ ?_))
  cases name with
  | none => rfl
  | some name => simp only [bind_assoc, pure_bind]

/-- Layout may be exchanged for other layout. -/
theorem startAlike_layout (hls : ∀ t ∈ ls, t.isLayout = true) (hls' : ls ≠ [])
    (hks : ∀ t ∈ ks, t.isLayout = true) (hks' : ks ≠ []) (us vs : List Token) :
    StartAlike (ks ++ us) (ls ++ vs) := by
  obtain ⟨l, ls, rfl⟩ := List.exists_cons_of_ne_nil hls'
  obtain ⟨k, ks, rfl⟩ := List.exists_cons_of_ne_nil hks'
  exact .inr ⟨⟨k, rfl, hks k List.mem_cons_self⟩, l, rfl, hls l List.mem_cons_self⟩

/-- A classifier with layout behind it is read with other layout as well. -/
theorem exists_gives_classifier {cl : Classifier} (hlex : c.IsLexed)
    (h : (classifier .data).run c = (.ok cl, c')) :
    ∃ ns ls, c.rest = ns ++ (ls ++ c'.rest) ∧
      (∀ t ∈ ls, t.isLayout = true) ∧ cl.layout = Layout.ofTokens? ls ∧
      (ls ≠ [] → ∀ ks us, ks ≠ [] → (∀ t ∈ ks, t.isLayout = true) →
      (∀ u ∈ us.head?, u.isLayout = false) →
        Gives (classifier .data) (ns ++ (ks ++ us))
          { cl with layout := Layout.ofTokens? ks } us) := by
  rw [classifier_eq_naming] at h ⊢
  obtain ⟨cl₀, c₁, hnaming, h⟩ := run_bind_ok h
  obtain ⟨l, c₂, hlayout, ⟨⟩⟩ := run_bind_ok h
  obtain ⟨ns, hns, hgives⟩ := halts_naming hnaming
  obtain ⟨-, ls, hls, rfl, hall⟩ := Reads.layout_tokens (hlex.of_append hns) _ _ hlayout
  refine ⟨ns, ls, by rw [hns, hls], hall, rfl, fun hne ks us hks hksLayout hus ↦ ?_⟩
  have hstart : StartAlike (ks ++ us) c₁.rest :=
    hls ▸ startAlike_layout hall hne hksLayout hks us c'.rest
  exact (hgives _ hstart).bind ((Gives.layout_append hksLayout hus).bind .pure)

/-! ## Lists -/

/-- A token of a list is a number or a shorthand. -/
theorem kind_ne_of_isListed (h : t.IsListed) {kind : TokenKind}
    (hkind : (kind.isLayout || kind.isNumber || kind.isShorthand) = false) : t.kind ≠ kind := by
  rintro rfl
  simp only [Bool.or_eq_false_iff] at hkind
  rcases h with h | h | h
  · rw [Token.isLayout, hkind.1.1] at h
    cases h
  · rw [hkind.1.2] at h
    cases h
  · rw [hkind.2] at h
    cases h

/-- The body of a data record is a list unless its name is `m`. -/
theorem run_body_values {cl : Classifier} {l : FieldList}
    (h : (body .data cl).run c = (.ok (.values l), c'))
    (hname : Text.sameWord cl.word "m" = false) : (values .data .real).run c = (.ok l, c') := by
  obtain ⟨o, c₁, ⟨⟩, h⟩ := run_bind_ok h
  rw [hname] at h
  obtain ⟨l', c₂, hvalues, ⟨⟩⟩ := run_bind_ok h
  exact hvalues

/-- Tokens of items are read as a list with the numbers that the items stand for, up to what no list
goes on with. -/
theorem givesSome_values {is : List WrittenItem} {ns : List (Option Int)}
    (hlex : ∀ t ∈ ts, Lexer.Spells t.kind t.text) (hshows : Shows ws is ts)
    (hws : inFront .data ws = false) (hstands : Stands none is ns) :
    GivesSome (values .data .real) ts (fun l ↦ List.Forall₂ ReadsAs l.values ns) ws := by
  rintro c rfl herrors
  obtain ⟨xs, hsteps, hxs⟩ := hstands.exists_expansion hshows [] nofun
  obtain ⟨vs, us, hexpands, hstuck, hend⟩ := values_outcome .data c
  have hnothing : ∀ s, ¬ExpansionStep .data (xs, ws) s := by
    intro s hs
    rw [(expansionStep_iff.mp hs).1] at hws
    cases hws
  obtain ⟨rfl, rfl⟩ := Expands.eq_of_stuck hsteps hnothing hexpands hstuck
  rcases hrun : (values .data .real).run c with ⟨e | l, c'⟩
  · rw [hrun, hws] at hend
    cases hend
  · rw [hrun] at hend
    obtain ⟨-, rfl, hrest⟩ := hend
    exact ⟨l, c', rfl, hxs, hrest, (Reads.values .data .real hlex _ _ hrun).1.trans herrors⟩

/-- The record ends behind the list. -/
theorem GivesSome.behind {cl : Classifier} {leading : Option Layout} {keyword : Option Field}
    {ps : Parameters} {P : FieldList → Prop} (hname : Text.sameWord cl.word "m" = false)
    (h : GivesSome (values .data .real) us P ws) (hws : IsEnding ps ws) :
    GivesSome (do
      let body ← Production.body .data cl
      let ps ← Production.ending
      return (⟨leading, cl, keyword, body, ps⟩ : DataRecord))
        us (fun r ↦ ∃ l, r.body = .values l ∧ P l) [] := by
  have hbody : GivesSome (body .data cl) us (fun b ↦ ∃ l, b = .values l ∧ P l) ws := by
    refine Gives.current.bind_some ?_
    rw [hname]
    exact h.bind fun l hl ↦ Gives.pure.givesSome ⟨l, rfl, hl⟩
  exact hbody.bind fun b hb ↦ hws.gives.bind fun _ _ ↦ Gives.pure.givesSome hb

/-- How a record with a list has been read: a front, layout, the list and what is behind it.  It is
read again with other layout and another list, and with its end at another place. -/
structure ListReading (ts : List Token) (d : DataRecord) (l : FieldList)
    (front ls vs ws : List Token) : Prop where
  split : ts = front ++ (ls ++ (vs ++ ws))
  solid : ∃ t ∈ front, t.isLayout = false
  layout : ∀ t ∈ ls, t.isLayout = true
  room : d.room = Layout.ofTokens? ls
  source : ∀ t, layoutText d.leading ++ (d.classifier.render t).text ++
    (renderField t d.keyword).text = textOf (front ++ ls)
  unended : ({ d with parameters := .empty } : DataRecord).source = textOf (front ++ (ls ++ vs))
  ending : IsEnding d.parameters ws
  readAs : d.parameters.ReadAs (textOf ws)
  values : ∃ c c', c.rest = vs ++ ws ∧ (values .data .real).run c = (.ok l, c') ∧ c'.rest = ws
  again : ∀ ks us ws' P, ks ≠ [] → (∀ t ∈ ks, t.isLayout = true) →
    (∀ u ∈ (us ++ ws').head?, u.isLayout = false) →
    (∀ u ∈ us, u.IsListed) → List.Forall₂ Token.Alike ws ws' → BarsEquals ws' →
      GivesSome (Production.values .data .real) (us ++ ws') P ws' →
        GivesSome (data .data) (front ++ (ks ++ (us ++ ws')))
          (fun r ↦ ∃ l', r.body = .values l' ∧ P l') []

/-- A run that has read a record with a list: its parts, and the tokens of each. -/
structure ListRun (c c₁ c₂ c₃ c₄ : Cursor) (d : DataRecord) (l : FieldList)
    (ls cs ks vs : List Token) : Prop where
  leading : layout.run c = (.ok d.leading, c₁)
  classifier : (classifier .data).run c₁ = (.ok d.classifier, c₂)
  keyword : (keyword? .data).run c₂ = (.ok d.keyword, c₃)
  values : (Production.values .data .real).run c₃ = (.ok l, c₄)
  lexed : c₁.IsLexed
  leading_eq : c.rest = ls ++ c₁.rest
  classifier_eq : c₁.rest = cs ++ c₂.rest
  keyword_eq : c₂.rest = ks ++ c₃.rest
  values_eq : c₃.rest = vs ++ c₄.rest
  source : ∀ t, layoutText d.leading ++ (d.classifier.render t).text ++
    (renderField t d.keyword).text = textOf (ls ++ (cs ++ ks))
  unended : ({ d with parameters := .empty } : DataRecord).source =
    textOf (ls ++ (cs ++ (ks ++ vs)))
  ending : IsEnding d.parameters c₄.rest
  readAs : d.parameters.ReadAs (textOf c₄.rest)

/-- The parts of a data record with a list are read one behind the other. -/
theorem exists_listRun {d : DataRecord} {l : FieldList} (hlex : c.IsLexed)
    (h : (data .data).run c = (.ok d, c')) (herrors : c'.errors = []) (hbody : d.body = .values l)
    (hname : Text.sameWord d.classifier.word "m" = false) :
    ∃ c₁ c₂ c₃ c₄ ls cs ks vs, ListRun c c₁ c₂ c₃ c₄ d l ls cs ks vs := by
  rw [data_eq_ending] at h
  obtain ⟨leading, c₁, hleading, h⟩ := run_bind_ok h
  obtain ⟨cl, c₂, hclassifier, h⟩ := run_bind_ok h
  obtain ⟨keyword, c₃, hkeyword, h⟩ := run_bind_ok h
  obtain ⟨body, c₄, hbodyRun, h⟩ := run_bind_ok h
  obtain ⟨ps, c₅, hending, ⟨⟩⟩ := run_bind_ok h
  change body = .values l at hbody
  change Text.sameWord cl.word "m" = false at hname
  subst hbody
  have hvalues := run_body_values hbodyRun hname
  obtain ⟨-, ls, hls, hleadingText⟩ := Reads.layout hlex _ _ hleading
  have hlex₁ : c₁.IsLexed := hlex.of_append hls
  obtain ⟨-, cs, hcs, hclRead, hclText⟩ := Reads.classifier .data hlex₁ _ _ hclassifier
  have hlex₂ : c₂.IsLexed := hlex₁.of_append hcs
  obtain ⟨-, ks, hks, hkeywordRead, hkeywordText⟩ := Reads.keyword? .data hlex₂ _ _ hkeyword
  have hlex₃ : c₃.IsLexed := hlex₂.of_append hks
  obtain ⟨-, vs, hvs, -, hlText⟩ := Reads.values .data .real hlex₃ _ _ hvalues
  have hsettled : c₄.IsSettled := keeps_values .data .real _ _ _
    (keeps_keyword? .data _ _ _ (settles_classifier .data _ _ _ hclassifier) hkeyword) hvalues
  obtain ⟨hisEnding, hreadAs⟩ := isEnding_of_run (hlex₃.of_append hvs) hsettled hending herrors
  refine ⟨c₁, c₂, c₃, c₄, ls, cs, ks, vs, hleading, hclassifier, hkeyword, hvalues, hlex₁, hls, hcs,
    hks, hvs, fun t ↦ ?_, ?_, hisEnding, hreadAs⟩
  · rw [hclRead.render, renderField_of_isRead hkeywordRead, hleadingText, hclText, hkeywordText,
      textOf_append, textOf_append, String.append_assoc]
  · simp only [DataRecord.source, DataBody.source, hleadingText, hclText, hkeywordText, hlText,
      textOf_append, Parameters.source, Parameters.empty, List.map_nil, String.join_nil,
      String.append_empty, String.append_assoc]

namespace ListRun

variable {c₁ c₂ c₃ c₄ : Cursor} {d : DataRecord} {l : FieldList} {cs : List Token}

/-- The layout in front of the record is read again in front of the same token. -/
theorem gives_leading (h : ListRun c c₁ c₂ c₃ c₄ d l ls cs ks vs) :
    ∀ us, us ≠ [] → us.head? = c₁.rest.head? → Gives layout (ls ++ us) d.leading us := by
  obtain ⟨ls', hls', hgives⟩ := Peeks.layout h.leading
  obtain rfl : ls = ls' := List.append_cancel_right (h.leading_eq.symm.trans hls')
  exact hgives

/-- The list stands right behind the layout of the classifier. -/
theorem listReading_of_classifier (h : ListRun c c₁ c₂ c₃ c₄ d l ls cs [] vs)
    (hkeyword : d.keyword = none) (hname : Text.sameWord d.classifier.word "m" = false)
    (hroom : d.room.isSome = true) : ∃ front gs vs ws, ListReading c.rest d l front gs vs ws := by
  obtain ⟨ns, gs, hns, hgs, hlayout, hgivesClassifier⟩ :=
    exists_gives_classifier h.lexed h.classifier
  have hroomOf : d.room = d.classifier.layout := by rw [DataRecord.room, hkeyword]
  rw [hroomOf, hlayout] at hroom
  have hne : gs ≠ [] := by
    rintro rfl
    cases hroom
  have hsolid : ∀ t ∈ c₁.rest.head?, t.isLayout = false := settles_layout _ _ _ h.leading
  rw [hns] at hsolid
  have hns' : ns ≠ [] := by
    rintro rfl
    obtain ⟨g, gs, rfl⟩ := List.exists_cons_of_ne_nil hne
    have hg := hsolid g rfl
    rw [hgs g List.mem_cons_self] at hg
    cases hg
  rw [List.head?_append_of_ne_nil _ hns'] at hsolid
  obtain rfl : cs = ns ++ gs := List.append_cancel_right
    (h.classifier_eq.symm.trans (hns.trans (List.append_assoc ..).symm))
  have hrest : c₂.rest = c₃.rest := h.keyword_eq
  refine ⟨ls ++ ns, gs, vs, c₄.rest, {
    split := by rw [h.leading_eq, hns, hrest, h.values_eq, List.append_assoc]
    solid := by
      obtain ⟨n, ns, rfl⟩ := List.exists_cons_of_ne_nil hns'
      exact ⟨n, by simp, hsolid n rfl⟩
    layout := hgs
    room := hroomOf.trans hlayout
    source := fun t ↦ by rw [h.source, List.append_nil, List.append_assoc]
    unended := by rw [h.unended]; simp
    ending := h.ending
    readAs := h.readAs
    values := ⟨c₃, c₄, h.values_eq, h.values, rfl⟩
    again := fun ms us ws P hms hmsLayout hus hlisted halike _ hP ↦ ?_ }⟩
  have hending := h.ending.alike halike
  rw [data_eq_ending, List.append_assoc]
  refine (h.gives_leading (ns ++ (ms ++ (us ++ ws))) (by simp [hns']) ?_).bind_some
    ((hgivesClassifier hne ms (us ++ ws) hms hmsLayout hus).bind_some
      ((Gives.no_keyword? fun u hu hkind ↦ ?_).bind_some (.behind hname hP hending)))
  · rw [hns, List.head?_append_of_ne_nil _ hns', List.head?_append_of_ne_nil _ hns']
  · cases us with
    | nil =>
      -- Only a parameter may be first behind the classifier.
      refine hending.starts.resolve_left ?_
      rintro rfl
      cases hu
    | cons v us =>
      obtain rfl : v = u := Option.some.inj hu
      exact absurd hkind (kind_ne_of_isListed (hlisted v List.mem_cons_self) rfl)

/-- A word stands between the classifier and the list. -/
theorem listReading_of_keyword {f : Field} (h : ListRun c c₁ c₂ c₃ c₄ d l ls cs ks vs)
    (hkeyword : d.keyword = some f) (hhead : c₂.rest.head? = some t) (hkind : t.kind = .keyword)
    (hvalue : (value .text "keyword").run c₂ = (.ok f, c₃))
    (hname : Text.sameWord d.classifier.word "m" = false) :
    ∃ front gs vs ws, ListReading c.rest d l front gs vs ws := by
  obtain ⟨-, _, hrest, u, gs, g, hu, rfl, -, hg, hgs, rfl⟩ :=
    Reads.value_tokens _ _ (h.lexed.of_append h.classifier_eq)
    _ _ hvalue
  obtain rfl : u = t := Option.some.inj (hu.symm.trans hhead)
  obtain rfl : ks = u :: gs := List.append_cancel_right (h.keyword_eq.symm.trans hrest)
  obtain ⟨cs', hcs', hgivesClassifier⟩ := Peeks.classifier .data h.classifier
  obtain rfl : cs = cs' := List.append_cancel_right (h.classifier_eq.symm.trans hcs')
  refine ⟨ls ++ (cs ++ [u]), gs, vs, c₄.rest, {
    split := by simp [h.leading_eq, h.classifier_eq, hrest, h.values_eq]
    solid := ⟨u, by simp, Token.isLayout_of_kind hkind rfl⟩
    layout := hgs
    room := by rw [DataRecord.room, hkeyword]; rfl
    source := fun t ↦ by rw [h.source]; simp
    unended := by rw [h.unended]; simp
    ending := h.ending
    readAs := h.readAs
    values := ⟨c₃, c₄, h.values_eq, h.values, rfl⟩
    again := fun ms us ws P hms hmsLayout hus hlisted halike hbars hP ↦ ?_ }⟩
  have hfront : ls ++ (cs ++ [u]) ++ (ms ++ (us ++ ws)) =
      ls ++ (cs ++ u :: (ms ++ (us ++ ws))) := by simp
  have hother : parameterInFront .data (u :: (ms ++ (us ++ ws))) = false := by
    rw [← List.append_assoc]
    refine parameterInFront_keyword hkind (fun v hv ↦ ?_) hbars
    rcases List.mem_append.mp hv with hv | hv
    · exact kind_ne_of_isListed (.inl (hmsLayout v hv)) rfl
    · exact kind_ne_of_isListed (hlisted v hv) rfl
  rw [data_eq_ending, hfront]
  refine (h.gives_leading (cs ++ u :: (ms ++ (us ++ ws))) (by simp) ?_).bind_some
    ((hgivesClassifier (u :: (ms ++ (us ++ ws))) (by simp) (by rw [hrest]; rfl)).bind_some
      ((Gives.keyword? hkind hg hmsLayout hus hother).bind_some
        (.behind hname hP (h.ending.alike halike))))
  rw [h.classifier_eq, hrest, List.cons_append, List.head?_append, List.head?_append]
  rfl

end ListRun

/-- The record of a list was read from its front, the list and what stands behind it. -/
theorem exists_listReading {d : DataRecord} {l : FieldList} (hlex : c.IsLexed)
    (h : (data .data).run c = (.ok d, c')) (herrors : c'.errors = []) (hbody : d.body = .values l)
    (hname : Text.sameWord d.classifier.word "m" = false) (hroom : d.room.isSome = true) :
    ∃ front ls vs ws, ListReading c.rest d l front ls vs ws := by
  obtain ⟨c₁, c₂, c₃, c₄, ls, cs, ks, vs, hrun⟩ := exists_listRun hlex h herrors hbody hname
  rcases keyword?_cases hrun.keyword with ⟨hkeyword, hsame⟩ | ⟨t, f, hhead, hkind, hkeyword, hvalue⟩
  · have hks := hrun.keyword_eq
    rw [hsame] at hks
    obtain rfl : ks = [] := by simpa using hks
    exact hrun.listReading_of_classifier hkeyword hname hroom
  · exact hrun.listReading_of_keyword hkeyword hhead hkind hvalue hname

end Production

end TransportDeck
