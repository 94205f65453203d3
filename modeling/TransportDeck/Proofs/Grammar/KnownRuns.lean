import TransportDeck.Proofs.Grammar.Progress

/-!
# Known runs

A production that is run on tokens that are known gives a value that is known.  What it makes of the
tokens in front of one that it leaves does not depend on what stands behind that.
-/

namespace TransportDeck

/-- The layout that is made of some tokens, if there are any. -/
def Layout.ofTokens? (ts : List Token) : Option Layout :=
  if ts.isEmpty then none else some (ts.foldl Layout.pushToken .empty)

namespace Layout

/-- A comment at the end is open. -/
theorem hasOpenComment_pushToken (l : Layout) {t : Token} (ht : t.kind.isComment = true) :
    (l.pushToken t).hasOpenComment = true := by
  have hpush : l.pushToken t = l.push (.comment ⟨t.text⟩) := by
    obtain ⟨kind, text, span⟩ := t
    cases kind <;> first | rfl | cases ht
  rw [hpush, hasOpenComment, push, List.foldl_append]
  rfl

/-- If none is open, the last token is no comment. -/
theorem isComment_of_closed {ts : List Token} (h : ∀ l ∈ ofTokens? ts, l.hasOpenComment = false) :
    ∀ t ∈ ts.getLast?, t.kind.isComment = false := by
  intro t ht
  obtain ⟨init, rfl⟩ := List.getLast?_eq_some_iff.mp ht
  refine Bool.eq_false_iff.mpr fun hcomment ↦ ?_
  have hne : (init ++ [t]).isEmpty = false := by simp
  rw [ofTokens?, hne, if_neg Bool.false_ne_true] at h
  have hopen := h _ rfl
  rw [List.foldl_append, List.foldl_cons, List.foldl_nil,
    hasOpenComment_pushToken _ hcomment] at hopen
  cases hopen

end Layout

namespace Production

variable {α β σ : Type} {p : Production α} {f : α → Production β} {c : Cursor} {a : α} {b : β}
  {ts us ls : List Token} {t : Token}

/-! ## Values -/

/-- From these tokens a run gives this value, leaves those and reports nothing. -/
def Gives (p : Production α) (ts : List Token) (a : α) (us : List Token) : Prop :=
  ∀ c : Cursor, c.rest = ts → ∃ c', p.run c = (.ok a, c') ∧ c'.rest = us ∧ c'.errors = c.errors

namespace Gives

theorem pure : Gives (pure a : Production α) ts a ts := fun c hc ↦ ⟨c, rfl, hc, rfl⟩

/-- A run is known if both of its halves are. -/
theorem bind {vs : List Token} (hp : Gives p ts a us) (hf : Gives (f a) us b vs) :
    Gives (p >>= f) ts b vs :=
  fun c hc ↦ by
    obtain ⟨c', hok, hc', herrors⟩ := hp c hc
    obtain ⟨c'', hok', hc'', herrors'⟩ := hf c' hc'
    exact ⟨c'', (run_bind_of_ok hok).trans hok', hc'', herrors'.trans herrors⟩

theorem current : Gives current? ts ts.head? ts := fun c hc ↦ by
  refine ⟨c, ?_, hc, rfl⟩
  change (Except.ok c.stream.current?, c) = _
  rw [c.stream.current?_eq_head?, ← hc]
  rfl

theorem currentKind : Gives currentKind? ts (ts.head?.map (·.kind)) ts := current.bind pure

theorem get_bind {f : Cursor → Production β}
    (hf : ∀ c : Cursor, c.rest = ts → Gives (f c) ts b us) : Gives (get >>= f) ts b us :=
  fun c hc ↦ hf c hc c hc

theorem currentSpan_bind {f : Span → Production β} (hf : ∀ span, Gives (f span) ts b us) :
    Gives (currentSpan >>= f) ts b us := fun c hc ↦ hf c.stream.currentSpan c hc

theorem advance : Gives advance (t :: ts) () ts := fun c hc ↦ ⟨c.next, rfl, c.rest_next hc, rfl⟩

/-- What is passed over is known from the tokens. -/
theorem takeWhile (p : Token → Bool) : Gives (takeWhile p) ts (ts.takeWhile p) (ts.dropWhile p) :=
  fun c hc ↦ by
  refine ⟨{ c with stream := (c.stream.takeWhile p).2 }, ?_, ?_, rfl⟩
  · rw [← hc, show c.rest = c.stream.rest from rfl, ← TokenStream.takeWhile_fst_eq]
    rfl
  · rw [← hc]
    exact TokenStream.rest_takeWhile_eq p c.stream

/-- The tokens up to the first that fails the test. -/
theorem takeWhile_append {p : Token → Bool} (hls : ∀ t ∈ ls, p t = true)
    (hus : ∀ t ∈ us.head?, p t = false) : Gives (Production.takeWhile p) (ls ++ us) ls us := by
  have htake : us.takeWhile p = [] ∧ us.dropWhile p = us := by
    cases us with
    | nil => exact ⟨rfl, rfl⟩
    | cons t us =>
      have ht := hus t rfl
      exact ⟨List.takeWhile_cons_of_neg (by simp [ht]), List.dropWhile_cons_of_neg (by simp [ht])⟩
  have hgives : Gives _ (ls ++ us) _ _ := takeWhile p
  rwa [List.takeWhile_append_of_pos hls, List.dropWhile_append_of_pos hls, htake.1, htake.2,
    List.append_nil] at hgives

/-- Layout in front of a solid token is read as the layout that it is. -/
theorem layout_append (hls : ∀ t ∈ ls, t.isLayout = true)
    (hus : ∀ t ∈ us.head?, t.isLayout = false) : Gives layout (ls ++ us) (Layout.ofTokens? ls) us :=
  (takeWhile_append hls hus).bind pure

/-- No layout stands next. -/
theorem layout (h : ∀ t ∈ ts.head?, t.isLayout = false) : Gives layout ts none ts := by
  have hnil : ∀ t ∈ ([] : List Token), t.isLayout = true := nofun
  exact layout_append hnil h

/-- No round goes on. -/
theorem rounds_nothing {round : σ → Production (Option σ)} {s : σ}
    (hlast : Gives (round s) ts none ts) (n : Nat) : Gives (rounds round n s) ts s ts := by
  cases n with
  | zero => exact pure
  | succ n => exact hlast.bind pure

/-- There are enough rounds for the tokens. -/
theorem loop {round : σ → Production (Option σ)} {s s' : σ}
    (h : Gives (rounds round (ts.length + 1) s) ts s' us) : Gives (loop round s) ts s' us :=
  fun c hc ↦ by
  have hlength : c.stream.size - c.stream.position = ts.length := by
    rw [← c.stream.rest_length, show c.stream.rest = ts from hc]
  rw [← hlength] at h
  exact h c hc

theorem finish : Gives finish [] () [] := (layout (by simp)).bind (current.bind pure)

end Gives

/-! ## Errors -/

/-- From these tokens a run fails. -/
def Fails (p : Production α) (ts : List Token) : Prop :=
  ∀ c : Cursor, c.rest = ts → ∃ e c', p.run c = (.error e, c')

namespace Fails

/-- What fails in its first half fails. -/
theorem bind (hp : Fails p ts) : Fails (p >>= f) ts := fun c hc ↦ by
  obtain ⟨e, c', herror⟩ := hp c hc
  exact ⟨e, c', run_bind_of_error herror⟩

/-- What fails behind its first half fails. -/
theorem bind_of_gives (hp : Gives p ts a us) (hf : Fails (f a) us) : Fails (p >>= f) ts :=
  fun c hc ↦ by
  obtain ⟨c', hok, hc', -⟩ := hp c hc
  obtain ⟨e, c'', herror⟩ := hf c' hc'
  exact ⟨e, c'', (run_bind_of_ok hok).trans herror⟩

theorem currentSpan_bind {f : Span → Production β} (hf : ∀ span, Fails (f span) ts) :
    Fails (currentSpan >>= f) ts := fun c hc ↦ hf c.stream.currentSpan c hc

theorem throw (e : SyntaxError) : Fails (throw e : Production α) ts := fun c _ ↦ ⟨e, c, rfl⟩

end Fails

/-! ## One token ahead -/

/-- A run that stops in front of a token is the same whatever stands behind that. -/
def Peeks (p : Production α) : Prop := ∀ ⦃c c' : Cursor⦄ ⦃a : α⦄, p.run c = (.ok a, c') →
  ∃ ts, c.rest = ts ++ c'.rest ∧ ∀ us, us ≠ [] → us.head? = c'.rest.head? → Gives p (ts ++ us) a us

namespace Peeks

theorem pure : Peeks (pure a : Production α) := by
  rintro c _ _ ⟨⟩
  exact ⟨[], rfl, fun us _ _ ↦ .pure⟩

theorem throw {e : SyntaxError} : Peeks (throw e : Production α) := by
  rintro _ _ _ ⟨⟩

theorem unexpected {expected : String} : Peeks (unexpected expected : Production α) := by
  rintro _ _ _ ⟨⟩

/-- A run looks no further than the token behind it if both of its halves do not. -/
theorem bind (hp : Peeks p) (hf : ∀ a, Peeks (f a)) : Peeks (p >>= f) := by
  intro c c'' b h
  obtain ⟨a, c', hrun, hrest⟩ := run_bind_ok h
  obtain ⟨ts, hts, hgives⟩ := hp hrun
  obtain ⟨us, hus, hgives'⟩ := hf a hrest
  refine ⟨ts ++ us, by rw [hts, hus, List.append_assoc], fun vs hne hhead ↦ ?_⟩
  rw [List.append_assoc]
  exact (hgives (us ++ vs) (by simp [hne])
    (by rw [hus, List.head?_append, List.head?_append, hhead])).bind (hgives' vs hne hhead)

theorem current? : Peeks current? := by
  rintro c _ _ ⟨⟩
  refine ⟨[], rfl, fun us _ hhead ↦ ?_⟩
  rw [c.current?_eq_head?, ← hhead]
  exact .current

theorem currentKind? : Peeks currentKind? := current?.bind fun _ ↦ pure

theorem currentSpan : Peeks currentSpan := by
  have hspan {c : Cursor} {t : Token} (ht : c.rest.head? = some t) :
      c.stream.currentSpan = t.span := by
    rw [TokenStream.currentSpan, c.current?_eq_head?, ht]
  rintro c _ _ ⟨⟩
  refine ⟨[], rfl, fun us hne hhead d hd ↦ ⟨d, ?_, hd, rfl⟩⟩
  obtain ⟨t, us, rfl⟩ := List.exists_cons_of_ne_nil hne
  change (Except.ok d.stream.currentSpan, d) = _
  rw [hspan (show d.rest.head? = some t by rw [hd]; rfl), hspan hhead.symm]

/-- Stepping on takes the first token, and looks at no other. -/
theorem advance : Peeks advance := by
  rintro c _ _ ⟨⟩
  have hrest : c.next.rest = c.rest.tail := c.stream.rest_advance
  change ∃ ts, c.rest = ts ++ c.next.rest ∧ ∀ us, us ≠ [] → us.head? = c.next.rest.head? → _
  rw [hrest]
  cases c.rest with
  | nil => exact ⟨[], rfl, fun us hne hhead ↦ absurd (List.head?_eq_none_iff.mp hhead) hne⟩
  | cons t ts => exact ⟨[t], rfl, fun us _ _ ↦ .advance⟩

theorem takeWhile (p : Token → Bool) : Peeks (takeWhile p) := by
  rintro c _ _ ⟨⟩
  refine ⟨_, c.stream.takeWhile_append p, fun us _ hhead ↦
    .takeWhile_append (c.stream.forall_takeWhile p) ?_⟩
  rw [hhead]
  exact c.stream.current?_takeWhile p

/-- Layout is read up to the token behind it, whatever stands behind that. -/
theorem layout : Peeks layout := (takeWhile _).bind fun _ ↦ pure

end Peeks

end Production

end TransportDeck
