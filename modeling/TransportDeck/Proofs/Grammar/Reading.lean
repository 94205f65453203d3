import TransportDeck.Grammar.Production
import TransportDeck.Proofs.Node.Layout
import TransportDeck.Proofs.Token.Lexing

/-!
# What a production reads

A production that succeeds has read a prefix of the tokens that were left.  What it gives is related
to that prefix, and the prefixes of the productions in a sequence follow each other.  Only
parameters report errors and go on; their record fails in the end.
-/

namespace TransportDeck

namespace Cursor

/-- The tokens that are left. -/
def rest (c : Cursor) : List Token := c.stream.rest

/-- The current token is the first one that is left. -/
theorem current?_eq_head? (c : Cursor) : c.stream.current? = c.rest.head? :=
  c.stream.current?_eq_head?

/-- The tokens that are left are spelled as the lexer spells them. -/
def IsLexed (c : Cursor) : Prop := ∀ t ∈ c.rest, Lexer.Spells t.kind t.text

/-- Tokens at the end of lexed tokens are lexed. -/
theorem IsLexed.of_append {c c' : Cursor} {ts : List Token} (h : c.IsLexed)
    (hrest : c.rest = ts ++ c'.rest) : c'.IsLexed := by
  intro t ht
  exact h t (hrest ▸ List.mem_append_right ts ht)

end Cursor

namespace Production

variable {α β σ : Type}

/-- A run from `c` that succeeds reads tokens that its result is related to, and reports nothing. -/
def Reads (p : Production α) (c : Cursor) (Q : α → List Token → Prop) : Prop :=
  c.IsLexed → ∀ a c', p.run c = (.ok a, c') →
    c'.errors = c.errors ∧ ∃ ts, c.rest = ts ++ c'.rest ∧ Q a ts

/-- A sequence succeeds if its parts do. -/
theorem run_bind_ok {p : Production α} {f : α → Production β} {c c'' : Cursor} {b : β}
    (h : (p >>= f).run c = (.ok b, c'')) :
    ∃ a c', p.run c = (.ok a, c') ∧ (f a).run c' = (.ok b, c'') := by
  have hbind : (p >>= f).run c = (ExceptT.bindCont f (p.run c).1).run (p.run c).2 := rfl
  rw [hbind] at h
  rcases hp : p.run c with ⟨r, c'⟩
  rw [hp] at h
  cases r with
  | ok a => exact ⟨a, c', rfl, h⟩
  | error e => cases h

/-- What is caught ends as it does by itself, or as its handler does. -/
theorem run_tryCatch_ok {p : Production α} {f : SyntaxError → Production α} {c c' : Cursor} {a : α}
    (h : (tryCatch p f).run c = (.ok a, c')) : p.run c = (.ok a, c') ∨
      ∃ e c'', p.run c = (.error e, c'') ∧ (f e).run c'' = (.ok a, c') := by
  rcases hp : p.run c with ⟨r, c''⟩
  change p c = (r, c'') at hp
  change (ExceptT.tryCatch p f).run c = _ at h
  simp only [ExceptT.tryCatch, ExceptT.run, ExceptT.mk, bind, StateT.bind, hp] at h
  cases r with
  | ok b => exact .inl h
  | error e => exact .inr ⟨e, c'', rfl, h⟩

/-- A phrase that succeeds one level deeper has succeeded there. -/
theorem run_nested_ok {p : Production α} {c c' : Cursor} {a : α}
    (h : (nested p).run c = (.ok a, c')) : ∃ c'',
      p.run { c with depth := c.depth + 1 } = (.ok a, c'') ∧
        c' = { c'' with depth := c''.depth - 1 } := by
  unfold nested at h
  obtain ⟨⟨⟩, c₁, henter, h⟩ := run_bind_ok h
  have hc₁ : c₁ = { c with depth := c.depth + 1 } := by
    unfold enter at henter
    obtain ⟨c₀, _, ⟨⟩, henter⟩ := run_bind_ok henter
    split_ifs at henter
    · cases henter
    · cases henter
      rfl
  obtain ⟨r, c₃, htry, h⟩ := run_bind_ok h
  rw [← hc₁]
  obtain hbody | ⟨e, c₂, -, hcatch⟩ := run_tryCatch_ok htry
  · obtain ⟨b, c₂, hp, hleave⟩ := run_bind_ok hbody
    cases hleave
    cases h
    exact ⟨c₂, hp, rfl⟩
  · obtain ⟨_, _, ⟨⟩, hthrow⟩ := run_bind_ok hcatch
    obtain ⟨_, _, ⟨⟩, -⟩ := run_bind_ok hthrow

variable {p : Production α} {c : Cursor} {Q Q' : α → List Token → Prop}
  {f : α → Production β} {R : β → List Token → Prop}

namespace Reads

/-! ## Sequences -/

theorem mono (h : Reads p c Q) (himp : ∀ a ts, Q a ts → Q' a ts) : Reads p c Q' := by
  intro hlex a c' hrun
  obtain ⟨hc, ts, hts, hQ⟩ := h hlex a c' hrun
  exact ⟨hc, ts, hts, himp a ts hQ⟩

/-- Two properties of what is read hold together. -/
theorem and (h : Reads p c Q) (h' : Reads p c Q') : Reads p c fun a ts ↦ Q a ts ∧ Q' a ts := by
  intro hlex a c' hrun
  obtain ⟨hc, ts, hts, hQ⟩ := h hlex a c' hrun
  obtain ⟨-, us, hus, hQ'⟩ := h' hlex a c' hrun
  obtain rfl : ts = us := List.append_cancel_right (hts.symm.trans hus)
  exact ⟨hc, ts, hts, hQ, hQ'⟩

/-- The tokens that are left may be taken as lexed. -/
theorem lexed (h : c.IsLexed → Reads p c Q) : Reads p c Q := fun hlex ↦ h hlex hlex

theorem pure {a : α} (h : Q a []) : Reads (pure a) c Q := by
  rintro - _ _ ⟨⟩
  exact ⟨rfl, [], rfl, h⟩

theorem throw {e : SyntaxError} : Reads (throw e : Production α) c Q := by
  rintro - _ _ ⟨⟩

/-- A run reads what its two halves read, one behind the other. -/
theorem bind (hp : Reads p c Q) (hf : ∀ a ts c', c.rest = ts ++ c'.rest → Q a ts →
    Reads (f a) c' fun b us ↦ R b (ts ++ us)) : Reads (p >>= f) c R := by
  intro hlex b c'' hrun
  obtain ⟨a, c', hp', hf'⟩ := run_bind_ok hrun
  obtain ⟨hc, ts, hts, hQ⟩ := hp hlex a c' hp'
  obtain ⟨hc', us, hus, hR⟩ := hf a ts c' hts hQ (hlex.of_append hts) b c'' hf'
  exact ⟨hc'.trans hc, ts ++ us, by rw [hts, hus, List.append_assoc], hR⟩

theorem map {g : α → β} (hp : Reads p c fun a ts ↦ R (g a) ts) :
    Reads (do return g (← p)) c R :=
  hp.bind fun a ts c' _ hQ ↦ .pure (by rwa [List.append_nil])

theorem unexpected {expected : String} : Reads (unexpected expected : Production α) c Q := by
  rintro - _ _ ⟨⟩

/-! ## Tokens -/

/-- A token of a kind with a fixed spelling has that spelling. -/
theorem spells {kind : TokenKind} {t : Token} {ts : List Token} {s : String}
    (hc : c.rest = t :: ts) (hkind : t.kind = kind) (hs : Lexer.spelling? kind = some s)
    (h : t.text = s → Reads p c Q) : Reads p c Q := by
  refine lexed fun hlex ↦ h ?_
  have hmem : t ∈ c.rest := by simp [hc]
  exact (hlex t hmem).mark s (by rw [hkind, hs]; rfl)

theorem current {f : Option Token → Production β} (h : Reads (f c.rest.head?) c R) :
    Reads (current? >>= f) c R := by
  rw [← c.current?_eq_head?] at h
  exact h

theorem currentKind {f : Option TokenKind → Production β}
    (h : Reads (f (c.rest.head?.map (·.kind))) c R) : Reads (currentKind? >>= f) c R := by
  rw [← c.current?_eq_head?] at h
  exact h

theorem get {f : Cursor → Production β} (h : Reads (f c) c R) : Reads (get >>= f) c R := h

/-- Stepping on reads one token. -/
theorem advance {t : Token} {ts : List Token} (hc : c.rest = t :: ts) :
    Reads advance c fun _ us ↦ us = [t] := by
  rintro - _ _ ⟨⟩
  refine ⟨rfl, [t], ?_, rfl⟩
  have hcurrent : c.stream.current? = some t := by
    rw [c.current?_eq_head?, hc]
    rfl
  exact c.stream.rest_of_current? hcurrent

/-- What is passed over are tokens that pass the test. -/
theorem takeWhile (p : Token → Bool) :
    Reads (takeWhile p) c fun taken ts ↦ taken = ts ∧ ∀ t ∈ ts, p t = true := by
  rintro - _ _ ⟨⟩
  exact ⟨rfl, _, c.stream.takeWhile_append p, rfl, c.stream.forall_takeWhile p⟩

/-- Layout is read with the text that it has. -/
theorem layout : Reads layout c fun l ts ↦ layoutText l = textOf ts := by
  refine (takeWhile Token.isLayout).bind ?_
  rintro ts _ c' - ⟨rfl, -⟩
  refine .pure ?_
  rw [List.append_nil]
  cases ts with
  | nil => rfl
  | cons t ts => exact (Layout.text_foldl_pushToken _ _).trans (String.empty_append)

/-- Only layout is left before the end of a record. -/
theorem finish : Reads finish c fun _ ts ↦ c.rest = ts ∧ ∀ t ∈ ts, t.isLayout = true := by
  have htaken : Reads Production.layout c fun _ ts ↦ ∀ t ∈ ts, t.isLayout = true :=
    (takeWhile Token.isLayout).bind fun _ ts _ _ h ↦ .pure (by simpa using h.2)
  refine htaken.bind fun _ ts c' hts h ↦ .current ?_
  cases hc' : c'.rest with
  | nil => exact .pure (by simpa [hts, hc'] using h)
  | cons t us => exact unexpected

/-! ## Nesting and repetition -/

/-- What is nested reads what it reads by itself. -/
theorem nested (h : ∀ c', c'.rest = c.rest → Reads p c' Q) : Reads (nested p) c Q := by
  intro hlex a c' hrun
  obtain ⟨c'', hp, rfl⟩ := run_nested_ok hrun
  exact h { c with depth := c.depth + 1 } rfl hlex a c'' hp

/-- An invariant of the rounds holds of what a bounded loop has read. -/
theorem rounds {round : σ → Production (Option σ)} {I : σ → List Token → Prop}
    (hround : ∀ s ts c', c.rest = ts ++ c'.rest → I s ts → Reads (round s) c' fun o us ↦
      match o with
      | some s' => I s' (ts ++ us)
      | none => us = [])
    (n : Nat) {s : σ} {ts : List Token} {c' : Cursor} (hc' : c.rest = ts ++ c'.rest) (hs : I s ts) :
    Reads (rounds round n s) c' fun s' us ↦ I s' (ts ++ us) := by
  induction n generalizing s ts c' with
  | zero => exact .pure (by rwa [List.append_nil])
  | succ n ih =>
    refine (hround s ts c' hc' hs).bind ?_
    rintro (_ | s') us c'' hus h
    · obtain rfl : us = [] := h
      exact .pure (by simpa using hs)
    · have hc'' : c.rest = (ts ++ us) ++ c''.rest := by rw [hc', hus, List.append_assoc]
      simpa only [List.append_assoc] using ih hc'' h

/-- An invariant of the rounds holds of what a loop has read. -/
theorem loop {round : σ → Production (Option σ)} {I : σ → List Token → Prop} {s : σ}
    (hround : ∀ s ts c', c.rest = ts ++ c'.rest → I s ts → Reads (round s) c' fun o us ↦
      match o with
      | some s' => I s' (ts ++ us)
      | none => us = [])
    (hs : I s []) : Reads (loop round s) c I :=
  .get (rounds hround _ rfl hs)

end Reads

/-! ## Reports -/

/-- A run from `c` that succeeds reads tokens; its result is related to them, or it has reported an
error. -/
def ReadsOrReports (p : Production α) (c : Cursor) (Q : α → List Token → Prop) : Prop :=
  c.IsLexed → ∀ a c', p.run c = (.ok a, c') → ∃ ts, c.rest = ts ++ c'.rest ∧
    (c'.errors = c.errors ∧ Q a ts ∨ c'.errors ≠ [])

theorem Reads.orReports (h : Reads p c Q) : ReadsOrReports p c Q := by
  intro hlex a c' hrun
  obtain ⟨hc, ts, hts, hQ⟩ := h hlex a c' hrun
  exact ⟨ts, hts, .inl ⟨hc, hQ⟩⟩

/-- A run reads what its halves read, unless the second half reports an error. -/
theorem Reads.bindReports (hp : Reads p c Q) (hf : ∀ a ts c', p.run c = (.ok a, c') →
    c.rest = ts ++ c'.rest → Q a ts → ReadsOrReports (f a) c' fun b us ↦ R b (ts ++ us)) :
    ReadsOrReports (p >>= f) c R := by
  intro hlex b c'' hrun
  obtain ⟨a, c', hp', hf'⟩ := run_bind_ok hrun
  obtain ⟨hc, ts, hts, hQ⟩ := hp hlex a c' hp'
  obtain ⟨us, hus, hR⟩ := hf a ts c' hp' hts hQ (hlex.of_append hts) b c'' hf'
  exact ⟨ts ++ us, by rw [hts, hus, List.append_assoc], hc ▸ hR⟩

namespace ReadsOrReports

theorem mono (h : ReadsOrReports p c Q) (himp : ∀ a ts, Q a ts → Q' a ts) :
    ReadsOrReports p c Q' := by
  intro hlex a c' hrun
  obtain ⟨ts, hts, hc⟩ := h hlex a c' hrun
  exact ⟨ts, hts, hc.imp_left fun hQ ↦ ⟨hQ.1, himp a ts hQ.2⟩⟩

theorem and (h : ReadsOrReports p c Q) (h' : ReadsOrReports p c Q') :
    ReadsOrReports p c fun a ts ↦ Q a ts ∧ Q' a ts := by
  intro hlex a c' hrun
  obtain ⟨ts, hts, hQ | hreport⟩ := h hlex a c' hrun
  · obtain ⟨us, hus, hQ' | hreport⟩ := h' hlex a c' hrun
    · obtain rfl : ts = us := List.append_cancel_right (hts.symm.trans hus)
      exact ⟨ts, hts, .inl ⟨hQ.1, hQ.2, hQ'.2⟩⟩
    · exact ⟨ts, hts, .inr hreport⟩
  · exact ⟨ts, hts, .inr hreport⟩

/-- Behind a report nothing need be known about the result, but nothing takes the report back. -/
theorem bind (hp : ReadsOrReports p c Q) (hf : ∀ a ts c', p.run c = (.ok a, c') →
    c.rest = ts ++ c'.rest → ReadsOrReports (f a) c' fun b us ↦ Q a ts → R b (ts ++ us)) :
    ReadsOrReports (p >>= f) c R := by
  intro hlex b c'' hrun
  obtain ⟨a, c', hp', hf'⟩ := run_bind_ok hrun
  obtain ⟨ts, hts, hQ⟩ := hp hlex a c' hp'
  obtain ⟨us, hus, hR⟩ := hf a ts c' hp' hts (hlex.of_append hts) b c'' hf'
  refine ⟨ts ++ us, by rw [hts, hus, List.append_assoc], ?_⟩
  obtain ⟨hc', hR⟩ | hreport := hR
  · rw [hc']
    exact hQ.imp_left fun hQ ↦ ⟨hQ.1, hR hQ.2⟩
  · exact .inr hreport

theorem map {g : α → β} (h : ReadsOrReports p c fun a ts ↦ R (g a) ts) :
    ReadsOrReports (do return g (← p)) c R :=
  h.bind fun a ts c' _ _ ↦ (Reads.pure fun ha ↦ by rwa [List.append_nil]).orReports

theorem get {f : Cursor → Production β} (h : ReadsOrReports (f c) c R) :
    ReadsOrReports (get >>= f) c R := h

/-- What reports an error need not read anything, for the record is refused. -/
theorem report {e : SyntaxError} {f : Unit → Production β}
    (hf : ∀ c' : Cursor, c'.rest = c.rest → Reads (f ()) c' fun _ us ↦ us = []) :
    ReadsOrReports (report e >>= f) c R := by
  intro hlex b c' hrun
  have hlex' : (c.report e).IsLexed := hlex
  obtain ⟨hc', us, hus, rfl⟩ := hf (c.report e) rfl hlex' b c' hrun
  refine ⟨[], hus, .inr ?_⟩
  rw [hc']
  simp [Cursor.report]

/-- What a round does to any state, it does to the one that has been reached. -/
theorem rounds {round : σ → Production (Option σ)} {I : σ → List Token → Prop}
    (hround : ∀ s c', ReadsOrReports (round s) c' fun o us ↦ ∀ ts, I s ts →
      match o with
      | some s' => I s' (ts ++ us)
      | none => us = [])
    (n : Nat) (s : σ) (c : Cursor) :
    ReadsOrReports (rounds round n s) c fun s' us ↦ ∀ ts, I s ts → I s' (ts ++ us) := by
  induction n generalizing s c with
  | zero => exact (Reads.pure fun ts hs ↦ by rwa [List.append_nil]).orReports
  | succ n ih =>
    refine (hround s c).bind fun o us c' _ _ ↦ ?_
    cases o with
    | none =>
      refine (Reads.pure ?_).orReports
      intro hround ts hs
      obtain rfl : us = [] := hround ts hs
      simpa using hs
    | some s' =>
      refine (ih s' c').mono fun s'' vs h hround ts hs ↦ ?_
      rw [← List.append_assoc]
      exact h (ts ++ us) (hround ts hs)

/-- An invariant of the rounds holds of what a loop has read, unless a round reports an error. -/
theorem loop {round : σ → Production (Option σ)} {I : σ → List Token → Prop} {s : σ}
    (hround : ∀ s c', ReadsOrReports (round s) c' fun o us ↦ ∀ ts, I s ts →
      match o with
      | some s' => I s' (ts ++ us)
      | none => us = [])
    (hs : I s []) : ReadsOrReports (loop round s) c I := by
  have hrounds (n : Nat) := (rounds hround n s c).mono fun s' us h ↦ h [] hs
  exact hrounds _

end ReadsOrReports

end Production

end TransportDeck
