import TransportDeck.Proofs.Grammar.Expansion
import TransportDeck.Proofs.Grammar.KeywordParameters
import TransportDeck.Proofs.Grammar.Shifting

/-!
# What stands behind the body of a data record

A data record ends with parameters, or with its body.  What is made of these tokens does not depend
on what stands in front of them: another body may be put there, and the parameters are read again as
they were.
-/

namespace TransportDeck

namespace Production

open WrittenItem

variable {α β : Type} {p : Production α} {f : α → Production β} {P : α → Prop} {Q : β → Prop}
  {c c' : Cursor} {t : Token} {ts us vs ws ws' : List Token} {ps : Parameters}

/-! ## Results with a property -/

/-- Where nothing has been reported a run from these tokens gives such a value, leaves those and
reports nothing. -/
def GivesSome (p : Production α) (ts : List Token) (P : α → Prop) (us : List Token) : Prop :=
  ∀ c : Cursor, c.rest = ts → c.errors = [] →
    ∃ a c', p.run c = (.ok a, c') ∧ P a ∧ c'.rest = us ∧ c'.errors = []

/-- A run whose result is known has a result with any property of that. -/
theorem Gives.givesSome {a : α} (h : Gives p ts a us) (ha : P a) : GivesSome p ts P us := by
  intro c hc herrors
  obtain ⟨c', hok, hrest, hsame⟩ := h c hc
  exact ⟨a, c', hok, ha, hrest, hsame.trans herrors⟩

/-- One run behind another. -/
theorem GivesSome.bind (hp : GivesSome p ts P us) (hf : ∀ a, P a → GivesSome (f a) us Q vs) :
    GivesSome (p >>= f) ts Q vs := by
  intro c hc herrors
  obtain ⟨a, c', hok, ha, hc', herrors'⟩ := hp c hc herrors
  obtain ⟨b, c'', hok', hb, hc'', herrors''⟩ := hf a ha c' hc' herrors'
  exact ⟨b, c'', (run_bind_of_ok hok).trans hok', hb, hc'', herrors''⟩

/-- A run whose result is known in front of another. -/
theorem Gives.bind_some {a : α} (hp : Gives p ts a us) (hf : GivesSome (f a) us Q vs) :
    GivesSome (p >>= f) ts Q vs :=
  (hp.givesSome (P := (· = a)) rfl).bind fun _ h ↦ h ▸ hf

/-- What has been read to the end is read again from the same tokens at another place. -/
theorem Related.givesSome {a : α} (hp : Shifts Eq p p) (h : p.run c = (.ok a, c'))
    (hnone : c.errors = []) (hrest : c'.rest = []) (herrors : c'.errors = [])
    (halike : List.Forall₂ Token.Alike c.rest ws) : GivesSome p ws (· = a) [] := by
  intro d hd hnone'
  have hshifted : c.Shifted d := ⟨hd ▸ halike, by rw [hnone, hnone']⟩
  obtain ⟨hresult, hplaces⟩ := hp hshifted
  rw [h] at hresult hplaces
  rcases hd' : p.run d with ⟨r, d'⟩
  rw [hd'] at hresult hplaces
  obtain ⟨rfl⟩ := hresult
  have hends : List.Forall₂ Token.Alike [] d'.rest := hrest ▸ hplaces.rest
  have hlength : 0 = d'.errors.length := by simpa [herrors] using hplaces.errors
  exact ⟨a, d', rfl, rfl, List.forall₂_nil_left_iff.mp hends,
    List.length_eq_zero_iff.mp hlength.symm⟩

/-! ## Starts of parameters -/

/-- Whether a parameter starts does not depend on the places of the tokens. -/
theorem parameterInFront_alike (h : List.Forall₂ Token.Alike ws ws') :
    parameterInFront .data ws = parameterInFront .data ws' := by
  have hshifted : Cursor.Shifted (.of (.of ws)) (.of (.of ws')) := ⟨h, rfl⟩
  have hahead := parameterAhead_shifted .data hshifted
  rwa [parameterAhead_eq, parameterAhead_eq] at hahead

/-- A parameter starts with a word, perhaps behind a mark. -/
theorem starts_of_parameterInFront {g : Grammar} (h : parameterInFront g (t :: ts) = true) :
    isMark t = true ∨ isWord t = true := by
  by_cases hmark : isMark t = true
  · exact .inl hmark
  · rw [parameterInFront, List.head?_cons, Option.any_some, if_neg hmark, Bool.and_eq_true] at h
    exact .inr h.1

/-- No list goes on with a parameter. -/
theorem inFront_of_parameterInFront (h : parameterInFront .data ts = true) :
    inFront .data ts = false := by
  cases ts with
  | nil => cases h
  | cons t ts =>
    have hstarts := starts_of_parameterInFront h
    obtain ⟨kind, text, span⟩ := t
    rw [inFront, h]
    cases kind <;> first | rfl | (rcases hstarts with hmark | hword <;> contradiction)

/-- Neither do pairs of nuclides. -/
theorem startsNuclide_of_parameterInFront (h : parameterInFront .data ts = true) :
    ∀ t ∈ ts.head?, startsNuclide t = false := by
  intro t ht
  obtain ⟨us, rfl⟩ := List.head?_eq_some_iff.mp ht
  have hstarts := starts_of_parameterInFront h
  obtain ⟨kind, text, span⟩ := t
  cases kind <;> first | rfl | (rcases hstarts with hmark | hword <;> contradiction)

/-- Where no parameter starts none is read. -/
theorem run_parameters_of_not_parameterInFront (h : parameterInFront .data c.rest = false) :
    (parameters .data).run c = (.ok .empty, c) := by
  have hround : (parameter? .data .empty).run c = (.ok none, c) := by
    rw [parameter?, run_bind_of_ok (run_startsParameter_eq .data), h]
    rfl
  change (rounds (parameter? .data) _ .empty).run c = _
  rw [rounds, run_bind_of_ok hround]
  rfl

/-! ## Endings -/

/-- What is read behind the body: the parameters and the end of the record. -/
def ending : Production Parameters := do
  let ps ← parameters .data
  finish
  return ps

theorem data_eq_ending : data .data = (do
    let leading ← layout
    let cl ← classifier .data
    let keyword ← keyword? .data
    let body ← body .data cl
    let ps ← ending
    return ⟨leading, cl, keyword, body, ps⟩) := by
  simp only [data, ending, bind_assoc, pure_bind]

/-- Endings do not depend on their place. -/
theorem shifts_ending : Shifts Eq ending ending :=
  (shifts_parameters .data).bind_eq fun _ ↦ shifts_finish.bind fun _ _ _ ↦ .pure rfl

/-- The tokens behind a body are read as these parameters, to the end of the record. -/
structure IsEnding (ps : Parameters) (ws : List Token) : Prop where
  starts : ws = [] ∨ parameterInFront .data ws = true
  solid : ∀ w ∈ ws.head?, w.isLayout = false
  gives : GivesSome ending ws (· = ps) []

namespace IsEnding

/-- Nothing may stand there. -/
theorem nil : IsEnding .empty [] where
  starts := .inl rfl
  solid := nofun
  gives := by
    have hending : Gives ending [] .empty [] := (gives_nothing .data).bind (Gives.finish.bind .pure)
    exact hending.givesSome rfl

/-- Where nothing stands there are no parameters. -/
theorem eq_empty (h : IsEnding ps []) : ps = .empty := by
  obtain ⟨ps', c', hrun, rfl, -⟩ := h.gives (.of (.of [])) rfl rfl
  obtain ⟨ps'', c'', hrun', rfl, -⟩ := nil.gives (.of (.of [])) rfl rfl
  rw [hrun'] at hrun
  exact (Except.ok.inj (Prod.mk.inj hrun).1).symm

/-- The parameters are read from the same tokens at another place. -/
theorem alike (h : IsEnding ps ws) (halike : List.Forall₂ Token.Alike ws ws') :
    IsEnding ps ws' where
  starts := by
    rcases h.starts with rfl | hstarts
    · cases halike
      exact .inl rfl
    · exact .inr (parameterInFront_alike halike ▸ hstarts)
  solid := by
    have hsolid := h.solid
    cases halike with
    | nil => exact hsolid
    | cons htu _ =>
      rintro _ ⟨⟩
      rw [Token.isLayout, ← htu.kind_eq]
      exact hsolid _ rfl
  gives := by
    obtain ⟨ps', c', hrun, rfl, hrest, herrors⟩ := h.gives (.of (.of ws)) rfl rfl
    exact shifts_ending.givesSome hrun rfl hrest herrors halike

/-- No list goes on there. -/
theorem inFront_eq (h : IsEnding ps ws) : inFront .data ws = false := by
  rcases h.starts with rfl | hstarts
  · rfl
  · exact inFront_of_parameterInFront hstarts

/-- No pair of a nuclide and its amount follows. -/
theorem startsNuclide_eq (h : IsEnding ps ws) : ∀ w ∈ ws.head?, startsNuclide w = false := by
  rcases h.starts with rfl | hstarts
  · exact nofun
  · exact startsNuclide_of_parameterInFront hstarts

end IsEnding

/-- No parameters have been read from nothing. -/
theorem eq_nil_of_readAs (h : ps.ReadAs (textOf ws)) (hnone : ps.params = [])
    (hws : ∀ w ∈ ws, w.text ≠ "") : ws = [] := by
  obtain ⟨raw, rfl, -, hsource⟩ := h
  have hkeys := Parameters.map_closeAll (f := fun _ ↦ ()) (fun _ ↦ rfl) raw.params
  rw [show Parameters.closeAll raw.params = [] from hnone] at hkeys
  have hraw : raw.params = [] := List.map_eq_nil_iff.mp hkeys.symm
  rw [Parameters.source, hraw] at hsource
  cases ws with
  | nil => rfl
  | cons w ws =>
    rw [textOf_cons] at hsource
    exact absurd (String.append_eq_empty_iff.mp hsource.symm).1 (hws w List.mem_cons_self)

/-- What has been read as the end of a record is an ending, and the source of its parameters. -/
theorem isEnding_of_run (hlex : c.IsLexed) (hsettled : c.IsSettled)
    (h : ending.run c = (.ok ps, c')) (herrors : c'.errors = []) :
    IsEnding ps c.rest ∧ ps.ReadAs (textOf c.rest) := by
  have hreads : ReadsOrReports ending c fun ps ts ↦ ts = c.rest ∧ ps.ReadAs (textOf ts) :=
    .parameters_finish hsettled (.parameters .data) fun _ hps ↦ ⟨rfl, hps⟩
  obtain ⟨ts, hts, hread⟩ := hreads hlex _ _ h
  obtain ⟨hsame, rfl, hread⟩ := hread.resolve_right fun hreport ↦ hreport herrors
  have hnil : c'.rest = [] := by simpa using hts
  refine ⟨⟨?_, hsettled, ?_⟩, hread⟩
  · rcases hrest : c.rest with _ | ⟨w, ws⟩
    · exact .inl rfl
    · right
      -- Without a parameter in front the record would not end there.
      by_contra hstarts
      rw [Bool.not_eq_true, ← hrest] at hstarts
      obtain ⟨ps', c₁, hparameters, hfinish⟩ := run_bind_ok h
      rw [run_parameters_of_not_parameterInFront hstarts] at hparameters
      cases hparameters
      obtain ⟨⟨⟩, c₂, hfinish, -⟩ := run_bind_ok hfinish
      obtain ⟨-, _, -, -, hends⟩ := Reads.finish_of_isSettled hsettled hlex _ _ hfinish
      rw [hrest] at hends
      cases hends
  · exact shifts_ending.givesSome h (hsame ▸ herrors)
      hnil herrors (List.forall₂_same.mpr fun _ _ ↦ ⟨rfl, rfl⟩)

end Production

end TransportDeck
