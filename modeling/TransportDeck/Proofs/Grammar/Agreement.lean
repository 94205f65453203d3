import TransportDeck.Grammar.Records
import TransportDeck.Proofs.Grammar.Related

/-!
# Productions that agree

Two records that are the same up to letter case are read step by step in the same way.  Productions
agree if, wherever the tokens that are left are the same in small letters, both fail with the same
error there or give results that are related, report the same errors on the way and leave off at the
same token.  Values, classifiers, lists and parameters agree.
-/

namespace TransportDeck

open Text

/-! ## Tokens -/

namespace Token

variable {t u : Token}

/-- Tokens that differ in the case of letters are of one kind. -/
theorem kind_alike (h : t.lowered = u.lowered) : t.kind = u.kind := (Token.mk.inj h).1

/-- Tokens that differ in the case of letters have one text in lower case. -/
theorem text_alike (h : t.lowered = u.lowered) : lowerString t.text = lowerString u.text :=
  (Token.mk.inj h).2.1

/-- Tokens that differ in the case of letters stand at one place. -/
theorem span_alike (h : t.lowered = u.lowered) : t.span = u.span := (Token.mk.inj h).2.2

/-- A token spells a word in either case, for words are compared without regard to it. -/
theorem spells_lowered (t : Token) (word : String) : t.lowered.spells word = t.spells word :=
  lowerString_sameWord t.text word

end Token

/-- The test does not see the letter case of a token. -/
def BlindToCase (p : Token → Bool) : Prop := ∀ t, p t.lowered = p t

namespace BlindToCase

variable {p : Token → Bool} (hp : BlindToCase p) {ts us : List Token}
include hp

/-- A test that is blind to case cannot tell such tokens apart. -/
theorem eq_of_alike {t u : Token} (h : t.lowered = u.lowered) : p t = p u := by
  rw [← hp t, h, hp u]

/-- A test that is blind to case cannot tell apart what may be such tokens. -/
theorem any_eq {o o' : Option Token} (h : o.map Token.lowered = o'.map Token.lowered) :
    o.any p = o'.any p := by
  rcases o with _ | t <;> rcases o' with _ | u <;> first | rfl | cases h | skip
  exact hp.eq_of_alike (Option.some.inj h)

/-- The next token passes the test in both places or in neither. -/
theorem filter_cases {o o' : Option Token} (h : o.map Token.lowered = o'.map Token.lowered) :
    (o.filter p = none ∧ o'.filter p = none) ∨
      ∃ t u, o.filter p = some t ∧ o'.filter p = some u ∧ t.lowered = u.lowered := by
  rcases o with _ | t <;> rcases o' with _ | u <;> first | exact .inl ⟨rfl, rfl⟩ | cases h | skip
  have htu := Option.some.inj h
  rw [Option.filter_some, Option.filter_some, hp.eq_of_alike htu]
  split_ifs
  · exact .inr ⟨t, u, rfl, rfl, htu⟩
  · exact .inl ⟨rfl, rfl⟩

/-- A test that is blind to case takes as many tokens of the one stream as of the other. -/
theorem takeWhile_alike (h : ts.map Token.lowered = us.map Token.lowered) :
    (ts.takeWhile p).map Token.lowered = (us.takeWhile p).map Token.lowered ∧
      (ts.dropWhile p).map Token.lowered = (us.dropWhile p).map Token.lowered := by
  have htake (ts : List Token) :
      (ts.takeWhile p).map Token.lowered = (ts.map Token.lowered).takeWhile p := by
    rw [List.takeWhile_map, (funext hp : p ∘ Token.lowered = p)]
  have hdrop (ts : List Token) :
      (ts.dropWhile p).map Token.lowered = (ts.map Token.lowered).dropWhile p := by
    rw [List.dropWhile_map, (funext hp : p ∘ Token.lowered = p)]
  rw [htake, htake, hdrop, hdrop, h]
  exact ⟨rfl, rfl⟩

end BlindToCase

/-- Tests of the kind alone. -/
theorem blindToCase_kind (p : TokenKind → Bool) : BlindToCase fun t ↦ p t.kind := fun _ ↦ rfl

/-- The texts of such tokens are equal in lower case. -/
theorem textOf_alike {ts us : List Token} (h : ts.map Token.lowered = us.map Token.lowered) :
    lowerString (textOf ts) = lowerString (textOf us) := by
  have htext (ts : List Token) : lowerString (textOf ts) = textOf (ts.map Token.lowered) := by
    induction ts with
    | nil => rfl
    | cons t ts ih =>
      rw [textOf_cons, lowerString_append, ih, List.map_cons, textOf_cons]
      rfl
  rw [htext, h, ← htext]

/-! ## Errors and places -/

/-- The error with the token that it shows in small letters. -/
def SyntaxError.lowered : SyntaxError → SyntaxError
  | unexpectedToken expected found span => unexpectedToken expected (lowerString found) span
  | malformedShorthand reason span => malformedShorthand reason.lowered span
  | e => e

/-- The same tokens are left up to letter case, and the same errors have been reported. -/
structure Cursor.Alike (c d : Cursor) : Prop where
  rest : c.rest.map Token.lowered = d.rest.map Token.lowered
  endSpan : c.stream.endSpan = d.stream.endSpan
  depth : c.depth = d.depth
  errors : c.errors.map SyntaxError.lowered = d.errors.map SyntaxError.lowered

namespace TokenStream

/-- The end of the stream stays where it is when the stream is stepped on. -/
theorem endSpan_advance (s : TokenStream) : s.advance.endSpan = s.endSpan := by
  unfold advance
  split_ifs <;> rfl

/-- The end of the stream stays where it is when tokens are passed over. -/
theorem endSpan_takeWhile (p : Token → Bool) (s : TokenStream) :
    (s.takeWhile p).2.endSpan = s.endSpan := by
  fun_induction takeWhile p s with
  | case1 s h => rfl
  | case2 s t h hp taken rest hrec ih =>
    rw [hrec, endSpan_advance] at ih
    exact ih
  | case3 s t h hp => rfl

end TokenStream

namespace Cursor.Alike

variable {c d : Cursor}

/-- At cursors that agree there are tokens that agree, or none. -/
theorem current? (h : c.Alike d) :
    c.stream.current?.map Token.lowered = d.stream.current?.map Token.lowered := by
  have hrest : c.stream.rest.map Token.lowered = d.stream.rest.map Token.lowered := h.rest
  rw [TokenStream.current?_eq_head?, TokenStream.current?_eq_head?,
    ← List.head?_map, ← List.head?_map, hrest]

/-- Cursors that agree stand at one place. -/
theorem currentSpan (h : c.Alike d) : c.stream.currentSpan = d.stream.currentSpan := by
  have hcurrent := h.current?
  unfold TokenStream.currentSpan
  rcases hc : c.stream.current? with _ | t <;> rcases hd :
    d.stream.current? with _ | u <;> rw [hc, hd] at hcurrent <;>
    first | cases hcurrent | skip
  · exact h.endSpan
  · exact Token.span_alike (Option.some.inj hcurrent)

/-- Cursors that agree are stepped on together. -/
theorem advance (h : c.Alike d) :
    Alike { c with stream := c.stream.advance } { d with stream := d.stream.advance } where
  rest := by
    have hrest : c.stream.rest.map Token.lowered = d.stream.rest.map Token.lowered := h.rest
    change c.stream.advance.rest.map _ = d.stream.advance.rest.map _
    rw [TokenStream.rest_advance, TokenStream.rest_advance, List.map_tail, hrest, List.map_tail]
  endSpan := by
    change c.stream.advance.endSpan = d.stream.advance.endSpan
    rw [TokenStream.endSpan_advance, TokenStream.endSpan_advance, h.endSpan]
  depth := h.depth
  errors := h.errors

/-- Cursors that agree pass over equally many tokens, if the test is blind to case. -/
theorem takeWhile (h : c.Alike d) {p : Token → Bool} (hp : BlindToCase p) :
    Alike { c with stream := (c.stream.takeWhile p).2 }
      { d with stream := (d.stream.takeWhile p).2 } where
  rest := by
    change (c.stream.takeWhile p).2.rest.map _ = (d.stream.takeWhile p).2.rest.map _
    rw [TokenStream.rest_takeWhile_eq, TokenStream.rest_takeWhile_eq]
    exact (hp.takeWhile_alike h.rest).2
  endSpan := by
    change (c.stream.takeWhile p).2.endSpan = (d.stream.takeWhile p).2.endSpan
    rw [TokenStream.endSpan_takeWhile, TokenStream.endSpan_takeWhile, h.endSpan]
  depth := h.depth
  errors := h.errors

/-- Errors that agree are reported at cursors that agree. -/
theorem report (h : c.Alike d) {e e' : SyntaxError} (he : e.lowered = e'.lowered) :
    (c.report e).Alike (d.report e') where
  rest := h.rest
  endSpan := h.endSpan
  depth := h.depth
  errors := by
    have hlength : c.errors.length = d.errors.length := by simpa using congrArg List.length h.errors
    unfold Cursor.report
    dsimp only
    rw [hlength]
    split_ifs
    · simp [h.errors, he]
    · simp [h.errors, he]

/-- The complaints about unexpected tokens agree, the tokens' text included. -/
theorem unexpected (h : c.Alike d) (expected : String) :
    (c.unexpected expected).lowered = (d.unexpected expected).lowered := by
  have hcurrent := h.current?
  unfold Cursor.unexpected
  rcases hc : c.stream.current? with _ | t <;> rcases hd :
    d.stream.current? with _ | u <;> rw [hc, hd] at hcurrent <;>
    first | cases hcurrent | skip
  · rw [h.currentSpan]
  · have htu := Option.some.inj hcurrent
    simp only [SyntaxError.lowered]
    rw [Token.text_alike htu, Token.span_alike htu]

end Cursor.Alike

namespace Production

variable {α β γ δ σ τ : Type}

/-! ## Agreement -/

/-- In places that are alike, both fail with the same error up to letter case or give related
results, and they leave off in places that are alike. -/
def Agree (V : α → β → Prop) (p : Production α) (q : Production β) : Prop :=
  ∀ ⦃c d : Cursor⦄, c.Alike d →
    Except.Agree (fun e e' ↦ e.lowered = e'.lowered) V (p.run c).1 (q.run d).1 ∧
    (p.run c).2.Alike (q.run d).2

namespace Agree

variable {V V' : α → β → Prop} {W : γ → δ → Prop} {p : Production α} {q : Production β}
  {f : α → Production γ} {g : β → Production δ}

theorem mono (h : Agree V p q) (hV : ∀ a b, V a b → V' a b) : Agree V' p q := Related.mono h hV

theorem pure {a : α} {b : β} (h : V a b) : Agree V (pure a) (pure b) := Related.pure h

theorem throw {e e' : SyntaxError} (h : e.lowered = e'.lowered) : Agree V (throw e) (throw e') :=
  Related.throw h

/-- Two productions agree if their first halves do and the rest agrees on related results. -/
theorem bind (hp : Agree V p q) (hf : ∀ a b, V a b → Agree W (f a) (g b)) :
    Agree W (p >>= f) (q >>= g) :=
  Related.bind hp hf

theorem map {f : α → γ} {g : β → δ} (hp : Agree (fun a b ↦ W (f a) (g b)) p q) :
    Agree W (do return f (← p)) (do return g (← q)) := hp.bind fun _ _ h ↦ .pure h

theorem get : Agree Cursor.Alike get get := Related.get

/-- The cursors may be changed by functions that keep them related. -/
theorem modify {k k' : Cursor → Cursor} (h : ∀ c d, Cursor.Alike c d → (k c).Alike (k' d)) :
    Agree (fun _ _ ↦ True) (modify k) (modify k') := Related.modify h

theorem current? :
    Agree (fun o o' ↦ o.map Token.lowered = o'.map Token.lowered) current? current? :=
  map (get.mono fun _ _ h ↦ h.current?)

theorem currentKind? : Agree Eq currentKind? currentKind? := by
  refine map (current?.mono fun o o' h ↦ ?_)
  have hkind (o : Option Token) : o.map (·.kind) = (o.map Token.lowered).map (·.kind) := by
    rw [Option.map_map]
    rfl
  rw [hkind, h, ← hkind]

theorem currentSpan : Agree Eq currentSpan currentSpan := map (get.mono fun _ _ h ↦ h.currentSpan)

theorem advance : Agree (fun _ _ ↦ True) advance advance := modify fun _ _ h ↦ h.advance

theorem unexpected (expected : String) : Agree V (unexpected expected) (unexpected expected) :=
  get.bind fun _ _ h ↦ .throw (h.unexpected expected)

theorem report {e e' : SyntaxError} (h : e.lowered = e'.lowered) :
    Agree (fun _ _ ↦ True) (Production.report e) (Production.report e') :=
  modify fun _ _ hcd ↦ hcd.report h

theorem tooDeep : Agree V tooDeep tooDeep := currentSpan.bind fun _ _ h ↦ .throw (by rw [h])

/-- A phrase one level deeper. -/
theorem nested (h : Agree V p q) : Agree V (nested p) (nested q) := by
  have hlevel {c d : Cursor} (hcd : c.Alike d) (k : Nat → Nat) :
      Cursor.Alike { c with depth := k c.depth } { d with depth := k d.depth } :=
    ⟨hcd.rest, hcd.endSpan, congrArg k hcd.depth, hcd.errors⟩
  intro c d hcd
  cases hdeep : c.isTooDeep with
  | true =>
    have hdeep' : d.isTooDeep = true := by rwa [Cursor.isTooDeep, ← hcd.depth]
    rw [Production.nested, Production.nested, run_bind_of_error (run_enter_of_isTooDeep hdeep),
      run_bind_of_error (run_enter_of_isTooDeep hdeep'), hcd.currentSpan]
    exact ⟨.error rfl, hcd⟩
  | false =>
    have hdeep' : d.isTooDeep = false := by rwa [Cursor.isTooDeep, ← hcd.depth]
    obtain ⟨hresult, halike⟩ := h (hlevel hcd (· + 1))
    rcases hc : p.run { c with depth := c.depth + 1 } with ⟨r, c'⟩
    rcases hd : q.run { d with depth := d.depth + 1 } with ⟨r', d'⟩
    rw [hc, hd] at hresult halike
    cases hresult with
    | ok h =>
      rw [run_nested_of_ok hdeep hc, run_nested_of_ok hdeep' hd]
      exact ⟨.ok h, hlevel halike (· - 1)⟩
    | error h =>
      rw [run_nested_of_error hdeep hc, run_nested_of_error hdeep' hd]
      exact ⟨.error h, hlevel halike (· - 1)⟩

/-- Two loops agree if their rounds agree on related states: they stop together. -/
theorem loop {R : σ → τ → Prop} {round : σ → Production (Option σ)}
    {round' : τ → Production (Option τ)}
    (hround : ∀ x y, R x y → Agree (Option.Rel R) (round x) (round' y)) {x : σ} {y : τ}
    (hxy : R x y) : Agree R (loop round x) (loop round' y) := by
  refine Related.loop hround (fun c d hcd ↦ ?_) hxy
  have hlength := congrArg List.length hcd.rest
  rwa [List.length_map, List.length_map] at hlength

/-! ### Tokens -/

/-- The tokens that a test passes over agree, if the test is blind to case. -/
theorem takeWhile {test : Token → Bool} (htest : BlindToCase test) :
    Agree (fun ts us ↦ ts.map Token.lowered = us.map Token.lowered)
      (takeWhile test) (takeWhile test) := by
  intro c d hcd
  refine ⟨.ok ?_, hcd.takeWhile htest⟩
  rw [TokenStream.takeWhile_fst_eq, TokenStream.takeWhile_fst_eq]
  exact (htest.takeWhile_alike hcd.rest).1

theorem layout : Agree (fun _ _ ↦ True) layout layout :=
  (takeWhile (blindToCase_kind TokenKind.isLayout)).bind fun _ _ _ ↦ .pure trivial

theorem finish : Agree (fun _ _ ↦ True) finish finish := by
  refine layout.bind fun _ _ _ ↦ current?.bind fun o o' h ↦ ?_
  have hsome : o.isSome = o'.isSome := by rw [← Option.isSome_map, h, Option.isSome_map]
  rw [hsome]
  split_ifs
  · exact .unexpected _
  · exact .pure trivial

end Agree

end Production

namespace Production

/-! ## Tests -/

/-- Which tokens are accepted for a kind of value depends on the kinds of the tokens only. -/
theorem blindToCase_accepts (kind : ValueKind) : BlindToCase (accepts kind) :=
  fun t ↦ by cases kind <;> rfl

theorem blindToCase_isParticleToken : BlindToCase isParticleToken := fun t ↦ by
  have hlength : t.lowered.text.length = t.text.length := length_lowerString t.text
  unfold isParticleToken
  rw [hlength]
  rfl

/-- What stands in front of an equals sign is told by the kind and the length of a token. -/
theorem blindToCase_isBeforeEquals : BlindToCase isBeforeEquals := fun t ↦ by
  rw [isBeforeEquals, isBeforeEquals, blindToCase_isParticleToken]
  rfl

theorem blindToCase_isMark : BlindToCase isMark := fun _ ↦ rfl

theorem blindToCase_isWord : BlindToCase isWord := fun _ ↦ rfl

theorem blindToCase_isUnsigned : BlindToCase isUnsigned := fun t ↦ by
  have htext : t.lowered.text.toList = lower t.text.toList := toList_lowerString t.text
  rw [isUnsigned, isUnsigned, htext]
  cases t.text.toList with
  | nil => rfl
  | cons c cs => exact congrArg (!·) (Number.isSign_toLower c)

/-- The equals sign of a parameter follows in both places or in neither. -/
theorem equalsAhead_alike {c d : Cursor} (h : c.Alike d) :
    equalsAhead c.stream = equalsAhead d.stream :=
  BlindToCase.any_eq (p := (·.kind == .equals)) (fun _ ↦ rfl)
    (h.takeWhile blindToCase_isBeforeEquals).current?

/-- Whether a parameter is ahead does not depend on the case of letters. -/
theorem parameterAhead_alike (g : Grammar) {c d : Cursor} (h : c.Alike d) :
    parameterAhead g c.stream = parameterAhead g d.stream := by
  have hword {c d : Cursor} (h : c.Alike d) :
      (c.stream.current?.any isWord && (!g.needsEquals || equalsAhead c.stream.advance)) =
        (d.stream.current?.any isWord && (!g.needsEquals || equalsAhead d.stream.advance)) := by
    have hequals : equalsAhead c.stream.advance = equalsAhead d.stream.advance :=
      equalsAhead_alike h.advance
    rw [blindToCase_isWord.any_eq h.current?, hequals]
  unfold parameterAhead
  obtain ⟨hc, hd⟩ | ⟨t, u, hc, hd, htu⟩ := Option.cases_of_map_eq h.current?
  · rw [hc, hd]
  · rw [hc, hd]
    dsimp only
    rw [blindToCase_isMark.eq_of_alike htu]
    split_ifs
    · exact hword h.advance
    · exact hword h

namespace Agree

variable {α β : Type}

/-! ## Values and classifiers -/

/-- A value is read alike in either case; a word keeps its letters, and is compared in lower case.
-/
theorem value (kind : ValueKind) (expected : String) :
    Agree (fun f f' ↦ f.lowered = f'.lowered) (value kind expected) (value kind expected) := by
  refine current?.bind fun o o' ho ↦ ?_
  obtain ⟨hnone, hnone'⟩ | ⟨t, u, ht, hu, htu⟩ := (blindToCase_accepts kind).filter_cases ho
  · rw [hnone, hnone']
    exact .unexpected expected
  · rw [ht, hu]
    dsimp only
    obtain ⟨hf, hf'⟩ | ⟨f, f', hf, hf', hlowered⟩ :=
      Option.cases_of_map_eq (Field.parse?_alike (Token.text_alike htu) kind)
    · rw [hf, hf']
      exact .unexpected expected
    · rw [hf, hf']
      exact advance.bind fun _ _ _ ↦ layout.bind fun _ _ _ ↦ .pure hlowered

theorem startsParameter (g : Grammar) : Agree Eq (startsParameter g) (startsParameter g) :=
  map (get.mono fun _ _ h ↦ parameterAhead_alike g h)

theorem word? {test : Token → Bool} (htest : BlindToCase test) :
    Agree (fun o o' ↦ o.map Field.lowered = o'.map Field.lowered) (word? test) (word? test) := by
  refine current?.bind fun o o' ho ↦ ?_
  obtain ⟨hnone, hnone'⟩ | ⟨t, u, ht, hu, htu⟩ := htest.filter_cases ho
  · rw [hnone, hnone']
    exact .pure rfl
  · rw [ht, hu]
    exact advance.bind fun _ _ _ ↦ .pure (Field.parse?_alike (Token.text_alike htu) .text)

/-- The number in a name is read alike in either case. -/
theorem nameNumber? :
    Agree (fun o o' ↦ o.map Field.lowered = o'.map Field.lowered) nameNumber? nameNumber? := by
  have htest : BlindToCase fun t ↦ t.kind.isNumber && isUnsigned t := fun t ↦
    congrArg (t.kind.isNumber && ·) (blindToCase_isUnsigned t)
  refine current?.bind fun o o' ho ↦ ?_
  obtain ⟨hnone, hnone'⟩ | ⟨t, u, ht, hu, htu⟩ := htest.filter_cases ho
  · rw [hnone, hnone']
    exact .pure rfl
  · rw [ht, hu]
    dsimp only
    obtain ⟨hf, hf'⟩ | ⟨f, f', hf, hf', hlowered⟩ :=
      Option.cases_of_map_eq (Field.parse?_alike (Token.text_alike htu) .int)
    · rw [hf, hf']
      exact .pure rfl
    · rw [hf, hf']
      refine advance.bind fun _ _ _ ↦ .pure ?_
      simp [Field.lowered_neverPad, hlowered]

/-- A list of particles is read alike in either case: symbols are looked up in lower case. -/
theorem particles? :
    Agree (fun o o' ↦ o.map ParticleList.lowered = o'.map ParticleList.lowered)
      particles? particles? := by
  refine currentKind?.bind fun k _ hk ↦ ?_
  subst hk
  split_ifs
  · refine currentSpan.bind fun span _ hspan ↦ advance.bind fun _ _ _ ↦ ?_
    subst hspan
    refine (takeWhile blindToCase_isParticleToken).bind fun ts us hts ↦ ?_
    have htext : lowerString (":" ++ textOf ts) = lowerString (":" ++ textOf us) := by
      rw [lowerString_append, textOf_alike hts, lowerString_append]
    have hparse : (ParticleList.parse? (":" ++ textOf ts)).map ParticleList.lowered =
        (ParticleList.parse? (":" ++ textOf us)).map ParticleList.lowered := by
      rw [ParticleList.lowered_parse?, htext, ← ParticleList.lowered_parse?]
    dsimp only
    obtain ⟨hp, hp'⟩ | ⟨p, p', hp, hp', hlowered⟩ := Option.cases_of_map_eq hparse
    · rw [hp, hp']
      exact .throw (congrArg (SyntaxError.unexpectedToken "particle list" · span) htext)
    · rw [hp, hp']
      exact .pure (congrArg some hlowered)
  · exact .pure rfl

/-- A classifier is read alike in either case. -/
theorem classifier (g : Grammar) :
    Agree (fun c c' ↦ c.lowered = c'.lowered) (classifier g) (classifier g) := by
  unfold Production.classifier
  split_ifs
  · exact .unexpected _
  refine (word? blindToCase_isMark).bind fun modifier modifier' hmodifier ↦ ?_
  refine (word? blindToCase_isWord).bind fun name name' hname ↦ ?_
  obtain ⟨rfl, rfl⟩ | ⟨name, name', rfl, rfl, hlowered⟩ := Option.cases_of_map_eq hname
  · exact .unexpected _
  · refine nameNumber?.bind fun number number' hnumber ↦
      particles?.bind fun particles particles' hparticles ↦ ?_
    refine layout.bind fun _ _ _ ↦ .pure ?_
    simp [Classifier.lowered, hmodifier, hlowered, hnumber, hparticles]

/-! ## Lists -/

/-- An error of a run of shorthands is turned into the same error of the record on both sides. -/
theorem orMalformed {E : ShorthandError → ShorthandError → Prop}
    (hE : ∀ e e', E e e' → e.lowered = e'.lowered) {V : α → β → Prop} {x : Except ShorthandError α}
    {y : Except ShorthandError β} (h : Except.Agree E V x y) (span : Span) :
    Agree V (orMalformed span x) (orMalformed span y) := by
  cases h with
  | ok h => exact .pure h
  | error h => exact .throw (congrArg (SyntaxError.malformedShorthand · span) (hE _ _ h))

/-- What leads a run is taken from two lists that agree, and is the same up to the case of letters.
-/
theorem leadOf (kind : ShorthandKind) (span : Span) {l l' : FieldList}
    (hl : l.lowered = l'.lowered) :
    Agree (fun a b ↦ a.1.lowered = b.1.lowered ∧ a.2.lowered = b.2.lowered) (leadOf kind span l)
      (leadOf kind span l') := by
  have hrun : l.endsWithRun = l'.endsWithRun := by
    rw [← l.endsWithRun_lowered, hl, l'.endsWithRun_lowered]
  have hlast : (l.last?.bind Field.signed).map Value.lowered =
      (l'.last?.bind Field.signed).map Value.lowered := by
    have hlowered (l : FieldList) :
        (l.last?.bind Field.signed).map Value.lowered = l.lowered.last?.bind Field.signed := by
      rw [l.last?_lowered]
      cases l.last? with
      | none => rfl
      | some f => exact f.signed_lowered.symm
    rw [hlowered l, hl, ← hlowered l']
  have hpop : l.popField?.map (fun r ↦ (r.1.lowered, r.2.lowered)) =
      l'.popField?.map fun r ↦ (r.1.lowered, r.2.lowered) := by
    rw [← l.popField?_lowered, hl, l'.popField?_lowered]
  unfold Production.leadOf
  rw [← hrun]
  split_ifs
  · exact .pure ⟨congrArg Lead.chained hlast, hl⟩
  · obtain ⟨hnone, hnone'⟩ | ⟨r, r', hr, hr', heq⟩ := Option.cases_of_map_eq hpop
    · rw [hnone, hnone']
      exact .throw rfl
    · rw [hr, hr']
      obtain ⟨hfield, hrest⟩ := Prod.mk.inj heq
      exact .pure ⟨congrArg Lead.owned hfield, hrest⟩

/-- A run of shorthands is read alike in either case. -/
theorem shorthand (g : Grammar) (kind : ShorthandKind) {t u : Token} (htu : t.lowered = u.lowered)
    {l l' : FieldList} (hl : l.lowered = l'.lowered) :
    Agree (fun a b ↦ a.lowered = b.lowered) (shorthand g kind t l) (shorthand g kind u l') := by
  have hid : l.nextId = l'.nextId := (FieldList.mk.inj hl).2.2.1
  have htaken := FieldList.takeId_alike hl
  have htext := Token.text_alike htu
  have made {m m' : FieldList} (hm : m.lowered = m'.lowered) {x y : Except ShorthandError Shorthand}
      (h : Shorthand.Agree x y) : Agree (fun a b ↦ a.lowered = b.lowered)
        (do return m.pushRun (← Production.orMalformed u.span x))
        (do return m'.pushRun (← Production.orMalformed u.span y)) :=
    (orMalformed (fun _ _ ↦ id) h u.span).bind fun _ _ hs ↦ .pure (FieldList.pushRun_alike hm hs)
  unfold Production.shorthand
  rw [hid, Token.span_alike htu]
  split_ifs
  · exact .throw rfl
  cases kind with
  | jump => exact layout.bind fun _ _ _ ↦ made htaken (Shorthand.agree_jump htext)
  | copies =>
    exact (leadOf _ _ htaken).bind fun a b hab ↦ layout.bind fun _ _ _ ↦
      made hab.2 (Shorthand.agree_copies htext hab.1)
  | multiply =>
    exact (leadOf _ _ htaken).bind fun a b hab ↦ layout.bind fun _ _ _ ↦
      made hab.2 (Shorthand.agree_multiply htext hab.1)
  | linear | logarithmic =>
    exact (leadOf _ _ htaken).bind fun a b hab ↦ layout.bind fun _ _ _ ↦
      (value _ _).bind fun last last' hlast ↦
      made hab.2 (Shorthand.agree_interpolate htext hab.1 hlast)

/-- An item of a list is read alike in either case, and the lists still agree behind it. -/
theorem item? (g : Grammar) (preferred : ValueKind) {l l' : FieldList}
    (hl : l.lowered = l'.lowered) :
    Agree (Option.Rel fun a b ↦ a.lowered = b.lowered) (item? g preferred l)
      (item? g preferred l') := by
  have pushed (kind : ValueKind) (expected : String) :
    Agree (Option.Rel fun a b ↦ FieldList.lowered a = b.lowered)
      (do return some (l.pushField (← Production.value kind expected)))
      (do return some (l'.pushField (← Production.value kind expected))) :=
    (value kind expected).bind fun _ _ hf ↦ .pure (.some (FieldList.pushField_alike hl hf))
  refine current?.bind fun o o' ho ↦ ?_
  obtain ⟨rfl, rfl⟩ | ⟨t, u, rfl, rfl, htu⟩ := Option.cases_of_map_eq ho
  · exact .pure .none
  have hkind := Token.kind_alike htu
  have hnumber : numberKind preferred t.text = numberKind preferred u.text := by
    rw [numberKind, ← Number.readInt?_lowerString, Token.text_alike htu,
      Number.readInt?_lowerString, numberKind]
  have hitem : isItem g t = isItem g u := by
    rw [isItem, isItem, hkind]
  dsimp only
  rw [← hkind, ← hnumber, ← hitem]
  split
  · exact pushed _ _
  · exact pushed _ _
  · exact advance.bind fun _ _ _ ↦ (shorthand g _ htu hl).bind fun _ _ h ↦ .pure (.some h)
  · refine (startsParameter g).bind fun b _ hb ↦ ?_
    subst hb
    split_ifs
    · exact .pure .none
    · exact pushed _ _
    · exact .pure .none

/-- A list of values is read alike in either case. -/
theorem values (g : Grammar) (preferred : ValueKind) :
    Agree (fun l l' ↦ l.lowered = l'.lowered) (values g preferred) (values g preferred) := by
  refine (loop (R := fun l l' ↦ FieldList.lowered l = l'.lowered)
    (fun l l' hl ↦ item? g preferred hl) rfl).bind fun l l' hl ↦ .pure ?_
  rw [l.lowered_detachTail, hl, l'.lowered_detachTail]

/-! ## Nuclides -/

theorem nuclide? {ns ns' : Nuclides} (h : ns.lowered = ns'.lowered) :
    Agree (Option.Rel fun a b ↦ a.lowered = b.lowered) (nuclide? ns) (nuclide? ns') := by
  refine current?.bind fun o o' ho ↦ ?_
  have hstarts : o.any startsNuclide = o'.any startsNuclide :=
    BlindToCase.any_eq (p := startsNuclide) (fun _ ↦ rfl) ho
  rw [hstarts]
  split_ifs
  · exact (value _ _).bind fun id id' hid ↦ (value _ _).bind fun amount amount' hamount ↦
      .pure (.some (Nuclides.push_of_alike h hid hamount))
  · exact .pure .none

/-- The pairs of a material are read alike in either case. -/
theorem nuclides : Agree (fun ns ns' ↦ ns.lowered = ns'.lowered) nuclides nuclides := by
  refine (loop (R := fun ns ns' ↦ Nuclides.lowered ns = ns'.lowered)
    (fun _ _ h ↦ nuclide? h) rfl).bind fun ns ns' h ↦ ?_
  have hempty : ns.isEmpty = ns'.isEmpty := by rw [← ns.isEmpty_lowered, h, ns'.isEmpty_lowered]
  rw [hempty]
  split_ifs
  · exact .unexpected _
  · exact .pure h

/-! ## Parameters -/

theorem separator? (g : Grammar) :
    Agree (fun o o' ↦ o.isSome = o'.isSome) (separator? g) (separator? g) := by
  refine currentKind?.bind fun k _ hk ↦ ?_
  subst hk
  split_ifs
  · exact advance.bind fun _ _ _ ↦ layout.bind fun _ _ _ ↦ .pure rfl
  · exact .unexpected _
  · exact .pure rfl

/-- A parameter is read alike in either case. -/
theorem parameter (g : Grammar) :
    Agree (fun p p' ↦ p.lowered = p'.lowered) (parameter g) (parameter g) := by
  refine (classifier g).bind fun c c' hc ↦ (separator? g).bind fun sep sep' hsep ↦ ?_
  refine (values g .int).bind fun vs vs' hvs ↦ ?_
  have hempty : vs.isEmpty = vs'.isEmpty := by rw [← vs.isEmpty_lowered, hvs, vs'.isEmpty_lowered]
  rw [hempty, hsep]
  split_ifs
  · exact .unexpected _
  · refine .pure ?_
    have hmap : (sep.map fun _ ↦ Layout.empty) = sep'.map fun _ ↦ Layout.empty := by
      cases sep <;> cases sep' <;> first | rfl | cases hsep
    rw [Parameter.lowered, Parameter.lowered, hc, hvs, hmap]

/-- A parameter is filed alike in either case: its key has no capital letters. -/
theorem parameter? (g : Grammar) {ps ps' : Parameters} (h : ps.lowered = ps'.lowered) :
    Agree (Option.Rel fun a b ↦ a.lowered = b.lowered) (parameter? g ps) (parameter? g ps') := by
  refine (startsParameter g).bind fun b _ hb ↦ ?_
  subst hb
  split_ifs
  · refine currentSpan.bind fun span _ hspan ↦ (parameter g).bind fun p p' hp ↦ ?_
    subst hspan
    have hinsert := Parameters.agree_insert h hp
    generalize ps.insert p = x at hinsert ⊢
    generalize ps'.insert p' = y at hinsert ⊢
    cases hinsert with
    | ok h => exact .pure (.some h)
    | error he =>
      subst he
      exact (report rfl).bind fun _ _ _ ↦ .pure (.some h)
  · exact .pure .none

/-- The parameters of a record are read alike in either case. -/
theorem parameters (g : Grammar) :
    Agree (fun ps ps' ↦ ps.lowered = ps'.lowered) (parameters g) (parameters g) := by
  unfold Production.parameters
  split_ifs
  · exact loop (fun _ _ h ↦ parameter? g h) rfl
  · exact .pure rfl

end Agree

end Production

end TransportDeck
