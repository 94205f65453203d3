import TransportDeck.Grammar.Atoms
import TransportDeck.Proofs.Grammar.Reading
import TransportDeck.Proofs.Token.LookingAhead

/-!
# What a production yields

The converse of reading: on tokens of the right form a production succeeds.  The one thing that may
stop it are phrases nested too deep.  A loop goes on as long as its rounds read tokens, so it has
rounds enough for any number of phrases in a row.
-/

namespace TransportDeck

/-- Only layout, and behind it a token that is none. -/
structure Skips (ts ls us : List Token) : Prop where
  eq : ts = ls ++ us
  layout : ∀ t ∈ ls, t.isLayout = true
  solid : ∀ t ∈ us.head?, t.isLayout = false

namespace TokenStream

/-- What is left of a stream is what stands behind its position. -/
theorem rest_length (s : TokenStream) : s.rest.length = s.size - s.position := by
  rw [rest, List.length_drop, Array.length_toList, size]

/-- A run of tokens ends where the next one fails the test. -/
theorem dropWhile_append_of_stops {p : Token → Bool} {ls us : List Token}
    (hls : ∀ t ∈ ls, p t = true) (hus : ∀ t ∈ us.head?, p t = false) :
    (ls ++ us).dropWhile p = us := by
  rw [List.dropWhile_append_of_pos hls]
  cases us with
  | nil => rfl
  | cons t us => exact List.dropWhile_cons_of_neg (by simp [hus t rfl])

/-- Behind a run of tokens, what the test does not pass is left. -/
theorem rest_takeWhile_eq (p : Token → Bool) (s : TokenStream) :
    (s.takeWhile p).2.rest = s.rest.dropWhile p := by
  conv_rhs => rw [s.takeWhile_append p,
    dropWhile_append_of_stops (s.forall_takeWhile p) (s.current?_takeWhile p)]

/-- The tokens that are passed over are the first ones that pass the test. -/
theorem takeWhile_fst_eq (p : Token → Bool) (s : TokenStream) :
    (s.takeWhile p).1 = s.rest.takeWhile p := by
  have hsplit := s.takeWhile_append p
  rw [rest_takeWhile_eq] at hsplit
  exact (List.append_left_inj _).mp (hsplit.symm.trans List.takeWhile_append_dropWhile.symm)

/-- Layout is skipped to its end. -/
theorem rest_takeWhile {s : TokenStream} {ls us : List Token} (h : Skips s.rest ls us) :
    (s.takeWhile Token.isLayout).2.rest = us := by
  rw [rest_takeWhile_eq, h.eq, dropWhile_append_of_stops h.layout h.solid]

/-- A record that has a token other than layout has such a token left. -/
theorem onlyLayoutLeft_of {ts : List Token} (h : ∃ t ∈ ts, t.isLayout = false) :
    (of ts).onlyLayoutLeft = false := by
  obtain ⟨t, ht, hsolid⟩ := h
  rw [onlyLayoutLeft_eq_all]
  exact List.all_eq_false.mpr ⟨t, ht, Bool.eq_false_iff.mp hsolid⟩

/-- Nothing is passed over where the first token does not pass the test. -/
theorem takeWhile_of_neg {p : Token → Bool} {s : TokenStream} {t : Token} {ts : List Token}
    (hs : s.rest = t :: ts) (ht : ¬p t = true) : s.takeWhile p = ([], s) := by
  have hcurrent : s.current? = some t := by rw [s.current?_eq_head?, hs, List.head?_cons]
  unfold takeWhile
  split
  · rfl
  · next u hu =>
    obtain rfl : t = u := Option.some.inj (hcurrent.symm.trans hu)
    rw [if_neg ht]

end TokenStream

namespace Cursor

/-- The place behind the next token. -/
def next (c : Cursor) : Cursor := { c with stream := c.stream.advance }

/-- Stepping on takes the first token off. -/
theorem rest_next (c : Cursor) {t : Token} {ts : List Token} (hc : c.rest = t :: ts) :
    c.next.rest = ts := by
  change c.stream.advance.rest = ts
  rw [c.stream.rest_advance]
  exact congrArg List.tail hc

end Cursor

namespace Production

variable {α β σ : Type}

section

variable {p : Production α} {f : α → Production β} {g : SyntaxError → Production α} {c c' : Cursor}
  {a : α} {e : SyntaxError}

/-- What succeeds goes on with what is bound behind it. -/
theorem run_bind_of_ok (h : p.run c = (.ok a, c')) : (p >>= f).run c = (f a).run c' := by
  have hbind : (p >>= f).run c = (ExceptT.bindCont f (p.run c).1).run (p.run c).2 := rfl
  rw [hbind, h]
  rfl

/-- What fails does not go on. -/
theorem run_bind_of_error (h : p.run c = (.error e, c')) : (p >>= f).run c = (.error e, c') := by
  have hbind : (p >>= f).run c = (ExceptT.bindCont f (p.run c).1).run (p.run c).2 := rfl
  rw [hbind, h]
  rfl

/-- What succeeds is not caught. -/
theorem run_tryCatch_of_ok (h : p.run c = (.ok a, c')) : (tryCatch p g).run c = (.ok a, c') := by
  change p c = _ at h
  change (ExceptT.tryCatch p g).run c = _
  simp only [ExceptT.tryCatch, ExceptT.run, ExceptT.mk, bind, StateT.bind, h]
  rfl

/-- What fails goes on with the handler. -/
theorem run_tryCatch_of_error (h : p.run c = (.error e, c')) :
    (tryCatch p g).run c = (g e).run c' := by
  change p c = _ at h
  change (ExceptT.tryCatch p g).run c = _
  simp only [ExceptT.tryCatch, ExceptT.run, ExceptT.mk, bind, StateT.bind, h]

/-- Below the last level there is no way down. -/
theorem run_enter_of_isTooDeep (h : c.isTooDeep = true) :
    (enter : Production Unit).run c = (.error (.nestedTooDeep c.stream.currentSpan), c) := by
  change (if c.isTooDeep then Production.tooDeep else modify _ : Production Unit).run c = _
  rw [if_pos h]
  rfl

/-- Above the last level the depth grows by one. -/
theorem run_enter (h : c.isTooDeep = false) :
    (enter : Production Unit).run c = (.ok (), { c with depth := c.depth + 1 }) := by
  change (if c.isTooDeep then Production.tooDeep else modify _ : Production Unit).run c = _
  rw [h]
  rfl

theorem run_nested_of_ok (hdeep : c.isTooDeep = false)
    (h : p.run { c with depth := c.depth + 1 } = (.ok a, c')) :
    (nested p).run c = (.ok a, { c' with depth := c'.depth - 1 }) := by
  refine (run_bind_of_ok (run_enter hdeep)).trans ?_
  exact (run_bind_of_ok (run_tryCatch_of_ok ((run_bind_of_ok h).trans rfl))).trans rfl

theorem run_nested_of_error (hdeep : c.isTooDeep = false)
    (h : p.run { c with depth := c.depth + 1 } = (.error e, c')) :
    (nested p).run c = (.error e, { c' with depth := c'.depth - 1 }) := by
  refine (run_bind_of_ok (run_enter hdeep)).trans ?_
  exact run_bind_of_error ((run_tryCatch_of_error (run_bind_of_error h)).trans rfl)

/-- What is nested ran above the last level. -/
theorem not_isTooDeep_of_nested (h : (nested p).run c = (.ok a, c')) : c.isTooDeep = false := by
  rw [← Bool.not_eq_true]
  intro hdeep
  rw [nested, run_bind_of_error (run_enter_of_isTooDeep hdeep)] at h
  cases h

end

section

variable {c : Cursor} {t : Token} {ts : List Token} (hc : c.rest = t :: ts)
include hc

/-- The current token is the first one that is left. -/
theorem run_current? : current?.run c = (.ok (some t), c) := by
  have hcurrent : c.stream.current? = some t := by rw [c.current?_eq_head?, hc, List.head?_cons]
  exact congrArg (fun o ↦ (Except.ok o, c)) hcurrent

/-- A word is taken if it passes the test. -/
theorem run_word?_of_pos {test : Token → Bool} (ht : test t = true) :
    (word? test).run c = (.ok (Field.parse? t.text .text none), c.next) := by
  rw [word?, run_bind_of_ok (run_current? hc), Option.filter_some, if_pos ht]
  rfl

/-- Without a word of that kind the place stays what it was. -/
theorem run_word?_of_neg {test : Token → Bool} (ht : ¬test t = true) :
    (word? test).run c = (.ok none, c) := by
  rw [word?, run_bind_of_ok (run_current? hc), Option.filter_some, if_neg ht]
  rfl

/-- Without layout the place stays what it was. -/
theorem run_layout_of_solid (ht : t.isLayout = false) : layout.run c = (.ok none, c) := by
  have htaken : c.stream.takeWhile Token.isLayout = ([], c.stream) :=
    TokenStream.takeWhile_of_neg hc (Bool.not_eq_true _ ▸ ht)
  have hrun : (takeWhile Token.isLayout).run c =
      (.ok (c.stream.takeWhile Token.isLayout).1,
      { c with stream := (c.stream.takeWhile Token.isLayout).2 }) := rfl
  rw [htaken] at hrun
  exact (run_bind_of_ok hrun).trans rfl

end

/-! ## Yielding -/

/-- A run from `c` reports nothing; its result is related to the tokens that it leaves, unless
phrases are nested too deep. -/
def Yields (p : Production α) (c : Cursor) (Q : α → List Token → Prop) : Prop :=
  ∃ c' : Cursor, c'.errors = c.errors ∧
    ((∃ a, p.run c = (.ok a, c') ∧ Q a c'.rest) ∨
      ∃ span, p.run c = (.error (.nestedTooDeep span), c'))

variable {p : Production α} {c : Cursor} {Q Q' : α → List Token → Prop}
  {f : α → Production β} {R : β → List Token → Prop}

namespace Yields

/-! ## Sequences -/

theorem mono (h : Yields p c Q) (himp : ∀ a us, Q a us → Q' a us) : Yields p c Q' := by
  obtain ⟨c', hc', hrun⟩ := h
  refine ⟨c', hc', hrun.imp_left ?_⟩
  rintro ⟨a, hok, hQ⟩
  exact ⟨a, hok, himp a _ hQ⟩

theorem pure {a : α} (h : Q a c.rest) : Yields (pure a) c Q := ⟨c, rfl, .inl ⟨a, rfl, h⟩⟩

/-- A run gives what its second half gives behind its first. -/
theorem bind (hp : Yields p c Q) (hf : ∀ a c', Q a c'.rest → Yields (f a) c' R) :
    Yields (p >>= f) c R := by
  obtain ⟨c', hc', ⟨a, hok, hQ⟩ | ⟨span, herror⟩⟩ := hp
  · obtain ⟨c'', hc'', hrun⟩ := hf a c' hQ
    refine ⟨c'', hc''.trans hc', ?_⟩
    rw [run_bind_of_ok hok]
    exact hrun
  · exact ⟨c', hc', .inr ⟨span, run_bind_of_error herror⟩⟩

theorem map {g : α → β} (hp : Yields p c fun a us ↦ R (g a) us) :
    Yields (do return g (← p)) c R :=
  hp.bind fun _ _ hQ ↦ .pure hQ

/-! ## Tokens -/

theorem current {f : Option Token → Production β} (h : Yields (f c.rest.head?) c R) :
    Yields (current? >>= f) c R := by
  rw [← c.current?_eq_head?] at h
  exact h

theorem get {f : Cursor → Production β} (h : Yields (f c) c R) : Yields (get >>= f) c R := h

theorem advance {t : Token} {us : List Token} (hc : c.rest = t :: us) :
    Yields advance c fun _ vs ↦ vs = us := by
  refine ⟨{ c with stream := c.stream.advance }, rfl, .inl ⟨(), rfl, ?_⟩⟩
  change c.stream.advance.rest = us
  rw [c.stream.rest_advance]
  exact congrArg List.tail hc

/-- Layout is read up to the next solid token. -/
theorem layout {ls us : List Token} (h : Skips c.rest ls us) : Yields layout c fun _ vs ↦ vs = us :=
  ⟨{ c with stream := (c.stream.takeWhile Token.isLayout).2 }, rfl,
    .inl ⟨_, rfl, TokenStream.rest_takeWhile h⟩⟩

/-- Nothing is left at the end. -/
theorem finish (h : c.rest = []) : Yields finish c fun _ vs ↦ vs = [] := by
  have hskips : Skips c.rest [] [] := ⟨h, by simp, by simp⟩
  refine (layout hskips).bind fun _ c' hc' ↦ .current ?_
  rw [hc']
  exact .pure hc'

/-! ## Nesting -/

/-- What fails gives nothing, and anything holds of it. -/
theorem tooDeep : Yields (tooDeep : Production α) c Q := ⟨c, rfl, .inr ⟨_, rfl⟩⟩

/-- What is nested gives what it gives by itself, on whatever level. -/
theorem nested (h : ∀ c', c'.rest = c.rest → Yields p c' Q) : Yields (nested p) c Q := by
  by_cases hdeep : c.isTooDeep = true
  · exact ⟨c, rfl, .inr ⟨_, run_bind_of_error (run_enter_of_isTooDeep hdeep)⟩⟩
  · rw [Bool.not_eq_true] at hdeep
    obtain ⟨c', hc', ⟨a, hok, hQ⟩ | ⟨span, herror⟩⟩ := h { c with depth := c.depth + 1 } rfl
    · exact ⟨{ c' with depth := c'.depth - 1 }, hc', .inl ⟨a, run_nested_of_ok hdeep hok, hQ⟩⟩
    · exact ⟨{ c' with depth := c'.depth - 1 }, hc', .inr ⟨span, run_nested_of_error hdeep herror⟩⟩

end Yields

/-! ## Repetition -/

/-- However many rounds are allowed, as long as there are more than tokens left. -/
def Loops (round : σ → Production (Option σ)) (s : σ) (c : Cursor) (Q : σ → List Token → Prop) :
    Prop :=
  ∀ n, c.rest.length < n → Yields (rounds round n s) c Q

variable {round : σ → Production (Option σ)} {s : σ} {S : σ → List Token → Prop}

/-- A round that reads a token and goes on. -/
theorem Loops.step (h : Yields (round s) c fun o us ↦ us.length < c.rest.length ∧
    ∃ s', o = some s' ∧ ∀ c' : Cursor, c'.rest = us → Loops round s' c' S) : Loops round s c S := by
  intro n hn
  obtain ⟨m, rfl⟩ : ∃ m, n = m + 1 := ⟨n - 1, by omega⟩
  refine Yields.bind h ?_
  rintro _ c' ⟨hlt, s', rfl, hloops⟩
  exact hloops c' rfl m (by omega)

/-- A round that gives nothing. -/
theorem Loops.stop (h : Yields (round s) c fun o us ↦ o = none ∧ S s us) : Loops round s c S := by
  intro n hn
  obtain ⟨m, rfl⟩ : ∃ m, n = m + 1 := ⟨n - 1, by omega⟩
  refine Yields.bind h ?_
  rintro _ c' ⟨rfl, hS⟩
  exact .pure hS

/-- A loop gives what its rounds, taken one after the other, come to. -/
theorem Loops.yields (h : Loops round s c S) : Yields (loop round s) c S := by
  refine Yields.get (h _ ?_)
  have hlength : c.rest.length = c.stream.size - c.stream.position := c.stream.rest_length
  omega

end Production

end TransportDeck
