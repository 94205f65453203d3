import TransportDeck.Grammar.Records
import TransportDeck.Proofs.Grammar.Related
import TransportDeck.Proofs.Token.Boundaries

/-!
# Tokens at other places

What is made of the tokens of a data record does not depend on where they stand, nor on what has
been read before them: places show in error messages only.
-/

namespace TransportDeck

namespace Token

/-- The test does not see the place of a token. -/
def IgnoresPlace (p : Token → Bool) : Prop :=
  ∀ kind text start stop, p ⟨kind, text, start⟩ = p ⟨kind, text, stop⟩

namespace IgnoresPlace

variable {p : Token → Bool} (hp : IgnoresPlace p) {ts us : List Token}
include hp

/-- A test that does not see places cannot tell apart tokens that differ in them only. -/
theorem eq_of_alike {t u : Token} (h : t.Alike u) : p t = p u := by
  obtain ⟨kind, text, start⟩ := t
  obtain rfl : kind = u.kind := h.kind_eq
  obtain rfl : text = u.text := h.text_eq
  exact hp u.kind u.text start u.span

/-- A test that does not see places cannot tell apart what may be such tokens. -/
theorem any_eq {o o' : Option Token} (h : Option.Rel Alike o o') : o.any p = o'.any p := by
  cases h with
  | some h => exact hp.eq_of_alike h
  | none => rfl

/-- The next token passes the test at both places or at neither. -/
theorem filter_cases {o o' : Option Token} (h : Option.Rel Alike o o') :
    (o.filter p = none ∧ o'.filter p = none) ∨
      ∃ t u, o.filter p = some t ∧ o'.filter p = some u ∧ t.Alike u := by
  cases h with
  | none => exact .inl ⟨rfl, rfl⟩
  | @some t u h =>
    rw [Option.filter_some, Option.filter_some, hp.eq_of_alike h]
    split_ifs
    · exact .inr ⟨t, u, rfl, rfl, h⟩
    · exact .inl ⟨rfl, rfl⟩

/-- A test that does not see places takes as many tokens of the one list as of the other. -/
theorem takeWhile_alike (h : List.Forall₂ Alike ts us) :
    List.Forall₂ Alike (ts.takeWhile p) (us.takeWhile p) ∧ List.Forall₂ Alike (ts.dropWhile p)
      (us.dropWhile p) := by
  induction h with
  | nil => exact ⟨.nil, .nil⟩
  | @cons t u ts us htu hrest ih =>
    rw [List.takeWhile_cons, List.takeWhile_cons, List.dropWhile_cons,
      List.dropWhile_cons, hp.eq_of_alike htu]
    split_ifs
    · exact ⟨.cons htu ih.1, ih.2⟩
    · exact ⟨.nil, .cons htu hrest⟩

end IgnoresPlace

/-- Tokens at other places have the same text. -/
theorem textOf_eq {ts us : List Token} (h : List.Forall₂ Alike ts us) : textOf ts = textOf us := by
  induction h with
  | nil => rfl
  | cons htu _ ih => rw [textOf_cons, textOf_cons, htu.text_eq, ih]

/-- The layout that tokens are collected into does not depend on their places. -/
theorem foldl_pushToken_eq {ts us : List Token} (h : List.Forall₂ Alike ts us) (l : Layout) :
    ts.foldl Layout.pushToken l = us.foldl Layout.pushToken l := by
  induction h generalizing l with
  | nil => rfl
  | @cons t u _ _ htu _ ih =>
    have hpush : l.pushToken t = l.pushToken u := by
      unfold Layout.pushToken
      rw [htu.kind_eq, htu.text_eq]
    rw [List.foldl_cons, List.foldl_cons, hpush, ih]

end Token

/-- The same tokens are left, and as many errors have been reported. -/
structure Cursor.Shifted (c d : Cursor) : Prop where
  rest : List.Forall₂ Token.Alike c.rest d.rest
  errors : c.errors.length = d.errors.length

namespace Cursor.Shifted

variable {c d : Cursor}

/-- At shifted cursors there are tokens that differ in their places only, or none. -/
theorem current? (h : c.Shifted d) :
    Option.Rel Token.Alike c.stream.current? d.stream.current? := by
  have hrest : List.Forall₂ Token.Alike c.stream.rest d.stream.rest := h.rest
  rw [TokenStream.current?_eq_head?, TokenStream.current?_eq_head?]
  generalize c.stream.rest = ts at hrest ⊢
  generalize d.stream.rest = us at hrest ⊢
  cases hrest with
  | nil => exact .none
  | cons htu _ => exact .some htu

/-- Shifted cursors are stepped on together. -/
theorem advance (h : c.Shifted d) :
    Shifted { c with stream := c.stream.advance } { d with stream := d.stream.advance } where
  rest := by
    have hrest : List.Forall₂ Token.Alike c.stream.rest d.stream.rest := h.rest
    change List.Forall₂ _ c.stream.advance.rest d.stream.advance.rest
    rw [TokenStream.rest_advance, TokenStream.rest_advance]
    generalize c.stream.rest = ts at hrest ⊢
    generalize d.stream.rest = us at hrest ⊢
    cases hrest with
    | nil => exact .nil
    | cons _ hrest => exact hrest
  errors := h.errors

/-- Shifted cursors pass over equally many tokens, if the test does not see places. -/
theorem takeWhile (h : c.Shifted d) {p : Token → Bool} (hp : Token.IgnoresPlace p) :
    Shifted { c with stream := (c.stream.takeWhile p).2 }
      { d with stream := (d.stream.takeWhile p).2 } where
  rest := by
    change List.Forall₂ _ (c.stream.takeWhile p).2.rest (d.stream.takeWhile p).2.rest
    rw [TokenStream.rest_takeWhile_eq, TokenStream.rest_takeWhile_eq]
    exact (hp.takeWhile_alike h.rest).2
  errors := h.errors

/-- Whatever is reported, the cursors still stand before the same tokens. -/
theorem report (h : c.Shifted d) (e e' : SyntaxError) : (c.report e).Shifted (d.report e') where
  rest := h.rest
  errors := by
    unfold Cursor.report
    dsimp only
    rw [h.errors]
    split_ifs <;> simp [h.errors]

end Cursor.Shifted

namespace Production

open Token

variable {α β γ δ σ : Type}

/-- Where the same tokens are left both fail, or they give related results and leave the same
tokens. -/
abbrev Shifts (V : α → β → Prop) : Production α → Production β → Prop :=
  Related Cursor.Shifted (fun _ _ ↦ True) V

/-! ## Tests -/

theorem ignoresPlace_accepts (kind : ValueKind) : IgnoresPlace (accepts kind) := by
  cases kind <;> exact fun _ _ _ _ ↦ rfl

theorem ignoresPlace_isMark : IgnoresPlace isMark := fun _ _ _ _ ↦ rfl

theorem ignoresPlace_isWord : IgnoresPlace isWord := fun _ _ _ _ ↦ rfl

theorem ignoresPlace_isLayout : IgnoresPlace Token.isLayout := fun _ _ _ _ ↦ rfl

theorem ignoresPlace_isParticleToken : IgnoresPlace isParticleToken := fun _ _ _ _ ↦ rfl

theorem ignoresPlace_isBeforeEquals : IgnoresPlace isBeforeEquals := fun _ _ _ _ ↦ rfl

/-- Whether an equals sign is ahead does not depend on where the tokens stand. -/
theorem equalsAhead_shifted {c d : Cursor} (h : c.Shifted d) :
    equalsAhead c.stream = equalsAhead d.stream :=
  IgnoresPlace.any_eq (p := (·.kind == .equals)) (fun _ _ _ _ ↦ rfl)
    (h.takeWhile ignoresPlace_isBeforeEquals).current?

/-- A parameter starts at both places or at neither. -/
theorem parameterAhead_shifted (g : Grammar) {c d : Cursor} (h : c.Shifted d) :
    parameterAhead g c.stream = parameterAhead g d.stream := by
  have hword {c d : Cursor} (h : c.Shifted d) :
      (c.stream.current?.any isWord && (!g.needsEquals || equalsAhead c.stream.advance)) =
        (d.stream.current?.any isWord && (!g.needsEquals || equalsAhead d.stream.advance)) := by
    have hequals : equalsAhead c.stream.advance = equalsAhead d.stream.advance :=
      equalsAhead_shifted h.advance
    rw [ignoresPlace_isWord.any_eq h.current?, hequals]
  have hcurrent := h.current?
  unfold parameterAhead
  generalize c.stream.current? = o at hcurrent ⊢
  generalize d.stream.current? = o' at hcurrent ⊢
  cases hcurrent with
  | none => rfl
  | some htu =>
    dsimp only
    rw [ignoresPlace_isMark.eq_of_alike htu]
    split_ifs
    · exact hword h.advance
    · exact hword h

/-! ## Steps -/

theorem shifts_current? : Shifts (Option.Rel Alike) current? current? :=
  .map (Related.get.mono fun _ _ h ↦ h.current?)

theorem shifts_currentKind? : Shifts Eq currentKind? currentKind? := by
  refine .map (shifts_current?.mono fun o o' h ↦ ?_)
  cases h with
  | some h => exact congrArg some h.kind_eq
  | none => rfl

/-- The spans themselves may differ, and nothing is said of them. -/
theorem shifts_currentSpan : Shifts (fun _ _ ↦ True) currentSpan currentSpan :=
  .map (Related.get.mono fun _ _ _ ↦ trivial)

theorem shifts_advance : Shifts (fun _ _ ↦ True) advance advance := .modify fun _ _ h ↦ h.advance

/-- What fails at both places is not compared any further. -/
theorem shifts_unexpected (V : α → β → Prop) (expected : String) :
    Shifts V (unexpected expected) (unexpected expected) :=
  Related.get.bind fun _ _ _ ↦ .throw trivial

theorem shifts_report (e e' : SyntaxError) : Shifts (fun _ _ ↦ True) (report e) (report e') :=
  .modify fun _ _ h ↦ h.report e e'

/-- The tokens that a test passes over differ in their places only. -/
theorem shifts_takeWhile {test : Token → Bool} (htest : IgnoresPlace test) :
    Shifts (List.Forall₂ Alike) (takeWhile test) (takeWhile test) := by
  intro c d hcd
  refine ⟨.ok ?_, hcd.takeWhile htest⟩
  rw [TokenStream.takeWhile_fst_eq, TokenStream.takeWhile_fst_eq]
  exact (htest.takeWhile_alike hcd.rest).1

/-- The layout that is read is the same at both places. -/
theorem shifts_layout : Shifts Eq layout layout := by
  refine (shifts_takeWhile ignoresPlace_isLayout).bind fun ts us h ↦ .pure ?_
  rw [foldl_pushToken_eq h]
  cases h <;> rfl

theorem shifts_finish : Shifts (fun _ _ ↦ True) finish finish := by
  refine shifts_layout.bind_eq fun _ ↦ shifts_current?.bind fun o o' h ↦ ?_
  cases h with
  | some _ => exact shifts_unexpected _ _
  | none => exact .pure trivial

/-- A loop gives the same at both places if its rounds do. -/
theorem shifts_loop {round : σ → Production (Option σ)}
    (hround : ∀ s, Shifts Eq (round s) (round s)) (s : σ) :
    Shifts Eq (loop round s) (loop round s) := by
  refine .loop (fun x y hxy ↦ ?_) (fun c d hcd ↦ hcd.rest.length_eq) rfl
  subst hxy
  refine (hround x).mono fun o o' ho ↦ ?_
  subst ho
  cases o with
  | some _ => exact .some rfl
  | none => exact .none

/-! ## Values and classifiers -/

/-- A value is the same at both places; only the complaint about a missing one may differ. -/
theorem shifts_value (kind : ValueKind) (expected : String) :
    Shifts Eq (value kind expected) (value kind expected) := by
  refine shifts_current?.bind fun o o' ho ↦ ?_
  obtain ⟨hnone, hnone'⟩ | ⟨t, u, ht, hu, htu⟩ := (ignoresPlace_accepts kind).filter_cases ho
  · rw [hnone, hnone']
    exact shifts_unexpected _ _
  · rw [ht, hu]
    dsimp only
    rw [htu.text_eq]
    cases Field.parse? u.text kind none with
    | none => exact shifts_unexpected _ _
    | some f => exact shifts_advance.bind fun _ _ _ ↦ shifts_layout.bind_eq fun _ ↦ .pure rfl

theorem shifts_word? {test : Token → Bool} (htest : IgnoresPlace test) :
    Shifts Eq (word? test) (word? test) := by
  refine shifts_current?.bind fun o o' ho ↦ ?_
  obtain ⟨hnone, hnone'⟩ | ⟨t, u, ht, hu, htu⟩ := htest.filter_cases ho
  · rw [hnone, hnone']
    exact .pure rfl
  · rw [ht, hu]
    exact shifts_advance.bind fun _ _ _ ↦ .pure (by rw [htu.text_eq])

/-- The number in a name is the same at both places. -/
theorem shifts_nameNumber? : Shifts Eq nameNumber? nameNumber? := by
  have htest : IgnoresPlace fun t ↦ t.kind.isNumber && isUnsigned t := fun _ _ _ _ ↦ rfl
  refine shifts_current?.bind fun o o' ho ↦ ?_
  obtain ⟨hnone, hnone'⟩ | ⟨t, u, ht, hu, htu⟩ := htest.filter_cases ho
  · rw [hnone, hnone']
    exact .pure rfl
  · rw [ht, hu]
    dsimp only
    rw [htu.text_eq]
    cases Field.parse? u.text .int none with
    | none => exact .pure rfl
    | some f => exact shifts_advance.bind fun _ _ _ ↦ .pure rfl

/-- A list of particles is the same at both places. -/
theorem shifts_particles? : Shifts Eq particles? particles? := by
  refine shifts_currentKind?.bind_eq fun k ↦ ?_
  split_ifs
  · refine shifts_currentSpan.bind fun _ _ _ ↦ shifts_advance.bind fun _ _ _ ↦ ?_
    refine (shifts_takeWhile ignoresPlace_isParticleToken).bind fun ts us h ↦ ?_
    rw [textOf_eq h]
    dsimp only
    cases ParticleList.parse? (":" ++ textOf us) with
    | none => exact .throw trivial
    | some p => exact .pure rfl
  · exact .pure rfl

/-- A classifier behind its mark. -/
def namedBy (modifier : Option Field) : Production Classifier := do
  match ← word? isWord with
  | none => unexpected "record name"
  | some name => do
    let number ← nameNumber?
    let particles ← particles?
    return ⟨modifier, name, number, particles, ← layout⟩

theorem classifier_eq {g : Grammar} (hg : g.allows .classifier = true) :
    classifier g = word? isMark >>= namedBy := by
  rw [classifier, hg]
  rfl

/-- Marks show in the classifier only. -/
theorem shifts_namedBy (modifier modifier' : Option Field) :
    Shifts (fun c c' ↦ c.modifier = modifier ∧ c' = { c with modifier := modifier' })
      (namedBy modifier) (namedBy modifier') := by
  refine (shifts_word? ignoresPlace_isWord).bind_eq fun name ↦ ?_
  cases name with
  | none => exact shifts_unexpected _ _
  | some name =>
    exact shifts_nameNumber?.bind_eq fun _ ↦ shifts_particles?.bind_eq fun _ ↦
      shifts_layout.bind_eq fun _ ↦
      .pure ⟨rfl, rfl⟩

/-- A classifier is the same at both places. -/
theorem shifts_classifier (g : Grammar) : Shifts Eq (classifier g) (classifier g) := by
  cases hg : g.allows .classifier with
  | false =>
    rw [classifier, hg]
    exact shifts_unexpected _ _
  | true =>
    rw [classifier_eq hg]
    refine (shifts_word? ignoresPlace_isMark).bind_eq fun modifier ↦ ?_
    refine (shifts_namedBy modifier modifier).mono ?_
    rintro c _ ⟨rfl, rfl⟩
    rfl

/-- Whether a parameter starts here is told by the tokens ahead, not by their places. -/
theorem shifts_startsParameter (g : Grammar) : Shifts Eq (startsParameter g) (startsParameter g) :=
  .map (Related.get.mono fun _ _ h ↦ parameterAhead_shifted g h)

/-! ## Lists -/

/-- The spans of errors may differ. -/
theorem shifts_orMalformed (x : Except ShorthandError α) (p q : Span) :
    Shifts Eq (orMalformed p x) (orMalformed q x) := by
  cases x with
  | ok a => exact .pure rfl
  | error e => exact .throw trivial

/-- What leads a run is taken from the list, so it is the same at both places. -/
theorem shifts_leadOf (kind : ShorthandKind) (p q : Span) (l : FieldList) :
    Shifts Eq (leadOf kind p l) (leadOf kind q l) := by
  unfold leadOf
  split_ifs
  · exact .pure rfl
  · split
    · exact .pure rfl
    · exact .throw trivial

/-- A run of shorthands is the same at both places. -/
theorem shifts_shorthand (g : Grammar) (kind : ShorthandKind) {t u : Token} (htu : t.Alike u)
    (l : FieldList) : Shifts Eq (shorthand g kind t l) (shorthand g kind u l) := by
  have made (m : FieldList) (x : Except ShorthandError Shorthand) : Shifts Eq
      (do return m.pushRun (← orMalformed t.span x))
        (do return m.pushRun (← orMalformed u.span x)) :=
    (shifts_orMalformed x t.span u.span).bind_eq fun _ ↦ .pure rfl
  unfold shorthand
  rw [htu.text_eq]
  split_ifs
  · exact .throw trivial
  cases kind with
  | jump => exact shifts_layout.bind_eq fun _ ↦ made _ _
  | copies | multiply =>
    exact (shifts_leadOf _ _ _ _).bind_eq fun _ ↦ shifts_layout.bind_eq fun _ ↦ made _ _
  | linear | logarithmic =>
    exact (shifts_leadOf _ _ _ _).bind_eq fun _ ↦ shifts_layout.bind_eq fun _ ↦
      (shifts_value _ _).bind_eq fun _ ↦ made _ _

/-- An item of a list is the same at both places. -/
theorem shifts_item? (g : Grammar) (preferred : ValueKind) (l : FieldList) :
    Shifts Eq (item? g preferred l) (item? g preferred l) := by
  have pushed (kind : ValueKind) (expected : String) :
    Shifts Eq (do return some (l.pushField (← value kind expected)))
      (do return some (l.pushField (← value kind expected))) :=
      (shifts_value kind expected).bind_eq fun _ ↦ .pure rfl
  refine shifts_current?.bind fun o o' ho ↦ ?_
  cases ho with
  | none => exact .pure rfl
  | @some t u htu =>
    have hitem : isItem g t = isItem g u := by
      rw [isItem, isItem, htu.kind_eq]
    dsimp only
    rw [htu.kind_eq, htu.text_eq, hitem]
    split
    · exact pushed _ _
    · exact pushed _ _
    · exact shifts_advance.bind fun _ _ _ ↦ (shifts_shorthand g _ htu l).bind_eq fun _ ↦ .pure rfl
    · refine (shifts_startsParameter g).bind_eq fun _ ↦ ?_
      split_ifs
      · exact .pure rfl
      · exact pushed _ _
      · exact .pure rfl

/-- A list of values is the same at both places. -/
theorem shifts_values (g : Grammar) (preferred : ValueKind) :
    Shifts Eq (values g preferred) (values g preferred) :=
  (shifts_loop (shifts_item? g preferred) .empty).bind_eq fun _ ↦ .pure rfl

/-- The pairs of a material are the same at both places. -/
theorem shifts_nuclides : Shifts Eq nuclides nuclides := by
  have hround (ns : Nuclides) : Shifts Eq (nuclide? ns) (nuclide? ns) := by
    refine shifts_current?.bind fun o o' ho ↦ ?_
    rw [IgnoresPlace.any_eq (p := startsNuclide) (fun _ _ _ _ ↦ rfl) ho]
    split_ifs
    · exact (shifts_value _ _).bind_eq fun _ ↦ (shifts_value _ _).bind_eq fun _ ↦ .pure rfl
    · exact .pure rfl
  refine (shifts_loop hround .empty).bind_eq fun ns ↦ ?_
  split_ifs
  · exact shifts_unexpected _ _
  · exact .pure rfl

/-! ## Parameters -/

theorem shifts_separator? (g : Grammar) : Shifts Eq (separator? g) (separator? g) := by
  refine shifts_currentKind?.bind_eq fun _ ↦ ?_
  split_ifs
  · exact shifts_advance.bind fun _ _ _ ↦ shifts_layout.bind_eq fun _ ↦ .pure rfl
  · exact shifts_unexpected _ _
  · exact .pure rfl

/-- A parameter is the same at both places. -/
theorem shifts_parameter (g : Grammar) : Shifts Eq (parameter g) (parameter g) := by
  refine (shifts_classifier g).bind_eq fun _ ↦ (shifts_separator? g).bind_eq fun _ ↦ ?_
  refine (shifts_values g .int).bind_eq fun _ ↦ ?_
  split_ifs
  · exact shifts_unexpected _ _
  · exact .pure rfl

theorem shifts_parameter? (g : Grammar) (ps : Parameters) :
    Shifts Eq (parameter? g ps) (parameter? g ps) := by
  refine (shifts_startsParameter g).bind_eq fun _ ↦ ?_
  split_ifs
  · refine shifts_currentSpan.bind fun _ _ _ ↦ (shifts_parameter g).bind_eq fun p ↦ ?_
    cases ps.insert p with
    | ok ps => exact .pure rfl
    | error duplicate => exact (shifts_report _ _).bind fun _ _ _ ↦ .pure rfl
  · exact .pure rfl

/-- The parameters of a record are the same at both places. -/
theorem shifts_parameters (g : Grammar) : Shifts Eq (parameters g) (parameters g) := by
  unfold parameters
  split_ifs
  · exact shifts_loop (shifts_parameter? g) .empty
  · exact .pure rfl

/-! ## Data records -/

theorem shifts_keyword? (g : Grammar) : Shifts Eq (keyword? g) (keyword? g) := by
  refine shifts_currentKind?.bind_eq fun _ ↦ Related.get.bind fun c d hcd ↦ ?_
  rw [parameterAhead_shifted g hcd]
  split_ifs
  · exact (shifts_value _ _).bind_eq fun _ ↦ .pure rfl
  · exact .pure rfl

/-- The body of a data record depends on the word in front of it, not on its place. -/
theorem shifts_body (g : Grammar) {c c' : Classifier} (h : c.word = c'.word) :
    Shifts Eq (body g c) (body g c') := by
  refine shifts_current?.bind fun o o' ho ↦ ?_
  rw [h, IgnoresPlace.any_eq (p := startsNuclide) (fun _ _ _ _ ↦ rfl) ho]
  split_ifs
  · exact shifts_nuclides.bind_eq fun _ ↦ .pure rfl
  · exact (shifts_values g _).bind_eq fun _ ↦ .pure rfl
  · exact .pure rfl

end Production

end TransportDeck
