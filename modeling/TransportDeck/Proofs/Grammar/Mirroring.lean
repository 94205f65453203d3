import TransportDeck.Proofs.Grammar.Progress
import TransportDeck.Proofs.Grammar.Atoms
import TransportDeck.Proofs.Node.Bare
import TransportDeck.Proofs.Token.Boundaries

/-!
# Runs that mirror each other

Two records may have the same tokens up to a seam, and behind it either the end or a parameter.  In
front of the seam they are read alike: whatever production succeeds on one succeeds on the other,
and what it gives differs in layout only.  No phrase reaches over the seam, for none goes on with a
parameter; the one exception are lists of particles, so a record must not be cut behind a particle.
-/

namespace TransportDeck

/-- Tokens at different places are layout both or neither. -/
theorem Token.Alike.isLayout_eq {t u : Token} (h : t.Alike u) : t.isLayout = u.isLayout :=
  congrArg TokenKind.isLayout h.kind_eq

namespace Production

/-! ## Starts of parameters -/

/-- A parameter starts with a word, perhaps behind a mark. -/
def opensParameter : List Token → Bool
  | [] => false
  | t :: ts => (if isMark t then ts.head? else some t).any isWord

/-- Whether a parameter is ahead in a cell is told by the tokens that are left. -/
theorem parameterAhead_cell (s : TokenStream) : parameterAhead .cell s = opensParameter s.rest := by
  have hrest (s : TokenStream) : s.advance.current? = s.rest.tail.head? := by
    rw [TokenStream.current?_eq_head?, TokenStream.rest_advance]
  unfold parameterAhead
  rw [s.current?_eq_head?]
  cases hs : s.rest with
  | nil => rfl
  | cons t ts =>
    by_cases ht : isMark t = true
    · simp [opensParameter, ht, hrest, hs, Grammar.cell]
    · simp [opensParameter, ht, s.current?_eq_head?, hs, Grammar.cell]

/-- No phrase in front of a parameter goes on with these tokens. -/
def Stops (ts : List Token) : Prop := ∀ t ∈ ts.head?, isWord t = true ∨ isMark t = true

/-- Neither a word nor a particle stands next. -/
def IsApart (ts : List Token) : Prop := ∀ t ∈ ts.head?, isWord t = false ∧ isParticleToken t = false

/-- What starts with layout is apart from the word or the particle in front of it. -/
theorem isApart_of_isLayout {ks : List Token} (hks : ∀ t ∈ ks, t.isLayout = true) (hne : ks ≠ [])
    (us : List Token) : IsApart (ks ++ us) := by
  obtain ⟨k, ks, rfl⟩ := List.exists_cons_of_ne_nil hne
  rintro _ ⟨⟩
  have hlayout : k.kind.isLayout = true := hks k List.mem_cons_self
  obtain ⟨kind, text, span⟩ := k
  cases kind <;> first | exact ⟨rfl, rfl⟩ | cases hlayout

/-- A list of particles or a classifier may go on behind the token. -/
def goesOn (t : Token) : Bool := t.kind == .colon || isParticleToken t || isMark t

end Production

open Production

/-! ## Seams -/

/-- Where two records part.  Each ends there or goes on with a parameter. -/
structure Seam where
  left : List Token
  right : List Token
  left_stops : Stops left
  right_stops : Stops right

namespace Seam

/-- The tokens in front of the seam, and the layout between them and it. -/
structure Split (s : Seam) (ms ns ls ks ts us : List Token) : Prop where
  left_eq : ts = ms ++ (ls ++ s.left)
  right_eq : us = ns ++ (ks ++ s.right)
  alike : List.Forall₂ Token.Alike ms ns
  left_layout : ∀ t ∈ ls, t.isLayout = true
  right_layout : ∀ t ∈ ks, t.isLayout = true
  edge : (∀ t ∈ ms.getLast?, goesOn t = false) ∨ (IsApart (ls ++ s.left) ∧ IsApart (ks ++ s.right))

/-- The same tokens up to the seam. -/
def Like (s : Seam) (ts us : List Token) : Prop := ∃ ms ns ls ks, s.Split ms ns ls ks ts us

/-- Only layout stands in front of the seam. -/
def AtEnd (s : Seam) (ts us : List Token) : Prop := ∃ ls ks, s.Split [] [] ls ks ts us

/-- A token stands in front of the seam. -/
def Inside (s : Seam) (ts us : List Token) : Prop :=
  ∃ t u ms ns ls ks, s.Split (t :: ms) (u :: ns) ls ks ts us

/-- As many phrases are open at both places, and nothing has been reported. -/
structure Abreast (c d : Cursor) : Prop where
  depth_eq : c.depth = d.depth
  no_errors : d.errors = []

/-- Two places in front of the seam. -/
structure Tracks (s : Seam) (c d : Cursor) : Prop extends Abreast c d where
  like : s.Like c.rest d.rest

variable {s : Seam} {ts us : List Token} {t u : Token}

/-- Behind their first tokens two lists are split at the same seam. -/
theorem Split.tail {ms ns ls ks : List Token} (h : s.Split (t :: ms) (u :: ns) ls ks ts us) :
    s.Split ms ns ls ks (ms ++ (ls ++ s.left)) (ns ++ (ks ++ s.right)) where
  left_eq := rfl
  right_eq := rfl
  alike := (List.forall₂_cons.mp h.alike).2
  left_layout := h.left_layout
  right_layout := h.right_layout
  edge := by
    refine h.edge.imp_left fun hlast v hv ↦ hlast v ?_
    cases ms with
    | nil => cases hv
    | cons w ws => rwa [List.getLast?_cons_cons]

/-- What is split at a seam is alike in front of it. -/
theorem Split.like {ms ns ls ks : List Token} (h : s.Split ms ns ls ks ts us) : s.Like ts us :=
  ⟨ms, ns, ls, ks, h⟩

/-- Two places in front of a seam are both inside, with a token in front of it, or both at the end.
-/
theorem Like.inside_or_atEnd (h : s.Like ts us) : s.Inside ts us ∨ s.AtEnd ts us := by
  obtain ⟨ms, ns, ls, ks, hsplit⟩ := h
  cases hsplit.alike with
  | nil => exact .inr ⟨ls, ks, hsplit⟩
  | @cons t u ms ns => exact .inl ⟨t, u, ms, ns, ls, ks, hsplit⟩

/-- The next tokens are alike. -/
theorem Inside.exists_cons (h : s.Inside ts us) : ∃ kind text p q ts' us',
    ts = ⟨kind, text, p⟩ :: ts' ∧ us = ⟨kind, text, q⟩ :: us' ∧ s.Like ts' us' := by
  obtain ⟨⟨kind, text, p⟩, ⟨kind', text', q⟩, ms, ns, ls, ks, hsplit⟩ := h
  have hhead := (List.forall₂_cons.mp hsplit.alike).1
  obtain rfl : kind = kind' := hhead.kind_eq
  obtain rfl : text = text' := hhead.text_eq
  exact ⟨kind, text, p, q, _, _, hsplit.left_eq, hsplit.right_eq, hsplit.tail.like⟩

/-! ### At the seam -/

/-- Nothing but layout or a parameter stands next. -/
def Idle (ts : List Token) : Prop :=
  ∀ t ∈ ts.head?, t.isLayout = true ∨ isWord t = true ∨ isMark t = true

/-- Layout in front of what stops a phrase starts no phrase, either. -/
theorem idle_append {ls rest : List Token} (hls : ∀ t ∈ ls, t.isLayout = true)
    (hrest : Stops rest) : Idle (ls ++ rest) := by
  cases ls with
  | nil => exact fun t ht ↦ .inr (hrest t ht)
  | cons l ls =>
    rintro _ ⟨⟩
    exact .inl (hls l List.mem_cons_self)

/-- At the end, where only layout is left in front of the seam, no phrase goes on. -/
theorem AtEnd.idle (h : s.AtEnd ts us) : Idle ts ∧ Idle us := by
  obtain ⟨ls, ks, hsplit⟩ := h
  have hleft := idle_append hsplit.left_layout s.left_stops
  have hright := idle_append hsplit.right_layout s.right_stops
  rw [hsplit.left_eq, hsplit.right_eq]
  exact ⟨hleft, hright⟩

/-- Tokens that neither are layout nor start a parameter. -/
def IsInner (t : Token) : Prop := t.isLayout = false ∧ isWord t = false ∧ isMark t = false

/-- A number is an inner token. -/
theorem isInner_of_isNumber (h : t.kind.isNumber = true) : IsInner t := by
  obtain ⟨kind, text, p⟩ := t
  change kind.isNumber = true at h
  cases kind <;> first | exact ⟨rfl, rfl, rfl⟩ | cases h

/-- No test that accepts inner tokens only accepts what stands at an idle place. -/
theorem Idle.filter_eq_none (h : Idle ts) {p : Token → Bool} (hp : ∀ t, p t = true → IsInner t) :
    ts.head?.filter p = none := by
  rw [Option.filter_eq_none_iff]
  intro t ht hpt
  obtain ⟨hlayout, hword, hmark⟩ := hp t hpt
  rcases h t ht with h | h | h
  · rw [h] at hlayout
    cases hlayout
  · rw [h] at hword
    cases hword
  · rw [h] at hmark
    cases hmark

/-- Whether a token is inner depends on its kind alone. -/
theorem isInner_of_kind_eq {k : TokenKind} (h : t.kind = k) (hk : IsInner ⟨k, "", .point .start⟩) :
    IsInner t := by
  obtain ⟨kind, text, p⟩ := t
  obtain rfl : kind = k := h
  exact hk

theorem Idle.any_eq_false (h : Idle ts) {p : Token → Bool} (hp : ∀ t, p t = true → IsInner t) :
    ts.head?.any p = false := by
  have hnone := h.filter_eq_none hp
  cases hhead : ts.head? with
  | none => rfl
  | some t =>
    rw [hhead, Option.filter_eq_none_iff] at hnone
    simpa using hnone t rfl

theorem Idle.kind_ne (h : Idle ts) {k : TokenKind} (hk : IsInner ⟨k, "", .point .start⟩) :
    (ts.head?.map (·.kind) == some k) = false := by
  have hnone := h.any_eq_false (p := fun t ↦ t.kind == k) fun t ht ↦
    isInner_of_kind_eq (beq_iff_eq.mp ht) hk
  cases hhead : ts.head? with
  | none => rfl
  | some t => simpa [hhead] using hnone

/-! ### Runs of tokens -/

/-- What stops a phrase is no layout. -/
theorem isLayout_of_stops (h : Stops ts) : ∀ t ∈ ts.head?, t.isLayout = false := by
  rintro ⟨kind, text, p⟩ ht
  rcases h _ ht with hword | hmark
  · change kind.isWord = true at hword
    cases kind <;> first | rfl | cases hword
  · cases kind <;> first | rfl | cases hmark

/-- Passing the layout keeps two places in front of the seam. -/
theorem Like.dropWhile_isLayout (h : s.Like ts us) :
    s.Like (ts.dropWhile Token.isLayout) (us.dropWhile Token.isLayout) := by
  obtain ⟨ms, ns, ls, ks, h⟩ := h
  induction ms generalizing ns ts us with
  | nil =>
    obtain rfl : ns = [] := by simpa using h.alike
    rw [h.left_eq, h.right_eq, List.nil_append, List.nil_append,
      TokenStream.dropWhile_append_of_stops h.left_layout (isLayout_of_stops s.left_stops),
      TokenStream.dropWhile_append_of_stops h.right_layout (isLayout_of_stops s.right_stops)]
    exact ⟨[], [], [], [], rfl, rfl, .nil, by simp, by simp, .inl (by simp)⟩
  | cons t ms ih =>
    obtain ⟨u, ns, htu, -, rfl⟩ := List.forall₂_cons_left_iff.mp h.alike
    by_cases ht : t.isLayout = true
    · have hu : u.isLayout = true := htu.isLayout_eq ▸ ht
      rw [h.left_eq, h.right_eq, List.cons_append, List.cons_append,
        List.dropWhile_cons_of_pos ht, List.dropWhile_cons_of_pos hu]
      exact ih _ h.tail
    · have hu : ¬u.isLayout = true := htu.isLayout_eq ▸ ht
      have hleft : ts.dropWhile Token.isLayout = ts := by
        rw [h.left_eq, List.cons_append, List.dropWhile_cons_of_neg ht]
      have hright : us.dropWhile Token.isLayout = us := by
        rw [h.right_eq, List.cons_append, List.dropWhile_cons_of_neg hu]
      rw [hleft, hright]
      exact h.like

theorem isParticleToken_eq (h : t.Alike u) : isParticleToken t = isParticleToken u := by
  obtain ⟨kind, text, p⟩ := t
  obtain ⟨kind', text', q⟩ := u
  obtain rfl : kind = kind' := h.kind_eq
  obtain rfl : text = text' := h.text_eq
  rfl

/-- Behind a colon or a particle, lists of particles are alike: none reaches over the seam. -/
theorem Split.takeWhile_particles {ms ns ls ks : List Token}
    (h : s.Split (t :: ms) (u :: ns) ls ks (t :: ts) (u :: us)) (ht : goesOn t = true) :
    textOf (ts.takeWhile isParticleToken) = textOf (us.takeWhile isParticleToken) ∧
      s.Like (ts.dropWhile isParticleToken) (us.dropWhile isParticleToken) := by
  have stop {vs ws : List Token} (hv : ∀ v ∈ vs.head?, isParticleToken v = false)
      (hw : ∀ w ∈ ws.head?, isParticleToken w = false) (hlike : s.Like vs ws) :
      textOf (vs.takeWhile isParticleToken) = textOf (ws.takeWhile isParticleToken) ∧
        s.Like (vs.dropWhile isParticleToken) (ws.dropWhile isParticleToken) := by
    have hnil {xs : List Token} (hx : ∀ x ∈ xs.head?, isParticleToken x = false) :
        xs.takeWhile isParticleToken = [] ∧ xs.dropWhile isParticleToken = xs := by
      cases xs with
      | nil => exact ⟨rfl, rfl⟩
      | cons x xs => simp [hx x rfl]
    rw [(hnil hv).1, (hnil hv).2, (hnil hw).1, (hnil hw).2]
    exact ⟨rfl, hlike⟩
  obtain rfl : ts = ms ++ (ls ++ s.left) := (List.cons.inj h.left_eq).2
  obtain rfl : us = ns ++ (ks ++ s.right) := (List.cons.inj h.right_eq).2
  induction ms generalizing t u ns with
  | nil =>
    obtain rfl : ns = [] := by simpa using (List.forall₂_cons.mp h.alike).2
    have hapart : IsApart (ls ++ s.left) ∧ IsApart (ks ++ s.right) := by
      refine h.edge.resolve_left fun hlast ↦ ?_
      rw [hlast t rfl] at ht
      cases ht
    exact stop (fun v hv ↦ (hapart.1 v hv).2) (fun w hw ↦ (hapart.2 w hw).2) h.tail.like
  | cons v ms ih =>
    obtain ⟨w, ns, hvw, -, rfl⟩ := List.forall₂_cons_left_iff.mp (List.forall₂_cons.mp h.alike).2
    by_cases hv : isParticleToken v = true
    · have hw : isParticleToken w = true := isParticleToken_eq hvw ▸ hv
      simp only [List.cons_append, List.takeWhile_cons_of_pos hv, List.takeWhile_cons_of_pos hw,
        List.dropWhile_cons_of_pos hv, List.dropWhile_cons_of_pos hw, textOf, List.map_cons,
        String.join_cons, hvw.text_eq]
      have hrest := ih (by simp [goesOn, hv]) h.tail
      simp only [textOf] at hrest
      exact ⟨congrArg (w.text ++ ·) hrest.1, hrest.2⟩
    · have hw : ¬isParticleToken w = true := isParticleToken_eq hvw ▸ hv
      refine stop ?_ ?_ h.tail.like
      · rintro _ ⟨⟩
        simpa using hv
      · rintro _ ⟨⟩
        simpa using hw

/-- In front of the seam a parameter starts at both places or at neither. -/
theorem Inside.opensParameter_eq (h : s.Inside ts us) : opensParameter ts = opensParameter us := by
  obtain ⟨⟨kind, text, p⟩, ⟨kind', text', q⟩, ms, ns, ls, ks, h⟩ := h
  have hhead := (List.forall₂_cons.mp h.alike).1
  obtain rfl : kind = kind' := hhead.kind_eq
  rw [h.left_eq, h.right_eq, List.cons_append, List.cons_append, opensParameter, opensParameter]
  have hmark : isMark ⟨kind, text, p⟩ = isMark ⟨kind, text', q⟩ := rfl
  rw [← hmark]
  split_ifs with hm
  · cases ms with
    | nil =>
      obtain rfl : ns = [] := by simpa using (List.forall₂_cons.mp h.alike).2
      have hapart : IsApart (ls ++ s.left) ∧ IsApart (ks ++ s.right) := by
        refine h.edge.resolve_left fun hlast ↦ ?_
        have := hlast _ rfl
        simp [goesOn, hm] at this
      have hnone {xs : List Token} (hx : IsApart xs) : xs.head?.any isWord = false := by
        cases hhead : xs.head? with
        | none => rfl
        | some x => exact (hx x hhead).1
      rw [List.nil_append, List.nil_append, hnone hapart.1, hnone hapart.2]
    | cons v ms =>
      obtain ⟨w, ns, hvw, -, rfl⟩ := List.forall₂_cons_left_iff.mp (List.forall₂_cons.mp h.alike).2
      change isWord v = isWord w
      exact congrArg TokenKind.isWord hvw.kind_eq
  · rfl

end Seam

open Seam

/-! ## Mirroring -/

namespace Production

variable {α β γ δ σ τ : Type} {s : Seam} {n k : Nat} {c d : Cursor}

/-- At least `n` tokens have been read between two places, and as many phrases are open at both. -/
structure Passes (n : Nat) (c c' : Cursor) : Prop where
  depth_eq : c'.depth = c.depth
  length_le : c'.rest.length + n ≤ c.rest.length

/-- Whatever `p` gives at one place, `q` gives at the other, up to a relation; behind it the places
are still in front of the seam, and at least `n` tokens have been read. -/
def Mirrors (s : Seam) (n : Nat) (V : α → β → Prop) (p : Production α) (q : Production β)
    (c d : Cursor) : Prop :=
  ∀ a c', p.run c = (.ok a, c') → ∃ b d', q.run d = (.ok b, d') ∧ V a b ∧ s.Tracks c' d' ∧
    Passes n c c' ∧ Passes n d d'

namespace Passes

variable {c' c'' : Cursor}

theorem refl : Passes 0 c c := ⟨rfl, le_rfl⟩

theorem weaken (h : Passes n c c') (hk : k ≤ n) : Passes k c c' :=
  ⟨h.depth_eq, (Nat.add_le_add_left hk _).trans h.length_le⟩

/-- Runs behind each other pass as many tokens as both do. -/
theorem append (h : Passes n c c') (h' : Passes k c' c'') : Passes (n + k) c c'' where
  depth_eq := h'.depth_eq.trans h.depth_eq
  length_le := by
    have := h.length_le
    have := h'.length_le
    omega

theorem trans (h : Passes n c c') (h' : Passes 0 c' c'') : Passes n c c'' := h.append h'

theorem of_trans (h : Passes 0 c c') (h' : Passes n c' c'') : Passes n c c'' :=
  n.zero_add ▸ h.append h'

end Passes

namespace Mirrors

variable {V V' : α → β → Prop} {W : γ → δ → Prop} {p : Production α} {q : Production β}
  {f : α → Production γ} {g : β → Production δ}

/-! ### Sequences -/

theorem mono (h : Mirrors s n V p q c d) (hV : ∀ a b, V a b → V' a b) : Mirrors s n V' p q c d := by
  intro a c' hrun
  obtain ⟨b, d', hq, hab, hpast⟩ := h a c' hrun
  exact ⟨b, d', hq, hV a b hab, hpast⟩

theorem weaken (h : Mirrors s n V p q c d) (hk : k ≤ n) : Mirrors s k V p q c d := by
  intro a c' hrun
  obtain ⟨b, d', hq, hab, htracks, hleft, hright⟩ := h a c' hrun
  exact ⟨b, d', hq, hab, htracks, hleft.weaken hk, hright.weaken hk⟩

theorem pure {a : α} {b : β} (h : s.Tracks c d) (hab : V a b) :
    Mirrors s 0 V (pure a) (pure b) c d := by
  rintro _ _ ⟨⟩
  exact ⟨b, d, rfl, hab, h, .refl, .refl⟩

theorem throw {e : SyntaxError} : Mirrors s n V (throw e : Production α) q c d := by
  rintro _ _ ⟨⟩

theorem unexpected {expected : String} :
    Mirrors s n V (unexpected expected : Production α) q c d := by
  rintro _ _ ⟨⟩

/-- Runs mirror each other if their first halves do and the rest mirrors on related results. -/
theorem bind (hp : Mirrors s n V p q c d) (hf : ∀ a b c' d', V a b → s.Tracks c' d' →
    Mirrors s 0 W (f a) (g b) c' d') : Mirrors s n W (p >>= f) (q >>= g) c d := by
  intro a' c'' hrun
  obtain ⟨a, c', hp', hf'⟩ := run_bind_ok hrun
  obtain ⟨b, d', hq, hab, htracks, hleft, hright⟩ := hp a c' hp'
  obtain ⟨b', d'', hg, hab', htracks', hleft', hright'⟩ := hf a b c' d' hab htracks a' c'' hf'
  exact ⟨b', d'', (run_bind_of_ok hq).trans hg, hab', htracks',
    hleft.trans hleft', hright.trans hright'⟩

/-- It is the second part that reads tokens. -/
theorem bind_reads (hp : Mirrors s 0 V p q c d) (hf : ∀ a b c' d', V a b → s.Tracks c' d' →
    Mirrors s n W (f a) (g b) c' d') : Mirrors s n W (p >>= f) (q >>= g) c d := by
  intro a' c'' hrun
  obtain ⟨a, c', hp', hf'⟩ := run_bind_ok hrun
  obtain ⟨b, d', hq, hab, htracks, hleft, hright⟩ := hp a c' hp'
  obtain ⟨b', d'', hg, hab', htracks', hleft', hright'⟩ := hf a b c' d' hab htracks a' c'' hf'
  exact ⟨b', d'', (run_bind_of_ok hq).trans hg, hab', htracks', hleft.of_trans hleft',
    hright.of_trans hright'⟩

/-- The first parts of both runs are known. -/
theorem of_runs {a : α} {b : β} {c' d' : Cursor} (hp : p.run c = (.ok a, c'))
    (hq : q.run d = (.ok b, d')) (hleft : Passes n c c') (hright : Passes n d d')
    (hf : Mirrors s k W (f a) (g b) c' d') : Mirrors s (n + k) W (p >>= f) (q >>= g) c d := by
  intro a' c'' hrun
  rw [run_bind_of_ok hp] at hrun
  obtain ⟨b', d'', hg, hab, htracks, hleft', hright'⟩ := hf a' c'' hrun
  exact ⟨b', d'', (run_bind_of_ok hq).trans hg, hab, htracks,
    hleft.append hleft', hright.append hright'⟩

theorem map {f : α → γ} {g : β → δ} (hp : Mirrors s n (fun a b ↦ W (f a) (g b)) p q c d) :
    Mirrors s n W (do return f (← p)) (do return g (← q)) c d :=
  hp.bind fun _ _ _ _ hab h ↦ .pure h hab

theorem current {f : Option Token → Production γ} {g : Option Token → Production δ}
    (h : Mirrors s n W (f c.rest.head?) (g d.rest.head?) c d) :
    Mirrors s n W (current? >>= f) (current? >>= g) c d := by
  rw [← c.current?_eq_head?, ← d.current?_eq_head?] at h
  exact h

theorem currentKind {f : Option TokenKind → Production γ} {g : Option TokenKind → Production δ}
    (h : Mirrors s n W (f (c.rest.head?.map (·.kind))) (g (d.rest.head?.map (·.kind))) c d) :
    Mirrors s n W (currentKind? >>= f) (currentKind? >>= g) c d := by
  rw [← c.current?_eq_head?, ← d.current?_eq_head?] at h
  exact h

theorem get {f : Cursor → Production γ} {g : Cursor → Production δ}
    (h : Mirrors s n W (f c) (g d) c d) : Mirrors s n W (get >>= f) (get >>= g) c d := h

/-! ### Tokens -/

/-- Behind a run of tokens, what is left is what the test does not pass. -/
theorem rest_takeWhile (c : Cursor) (test : Token → Bool) :
    Cursor.rest { c with stream := (c.stream.takeWhile test).2 } = c.rest.dropWhile test :=
  c.stream.rest_takeWhile_eq test

theorem passes_advance {t : Token} {ts : List Token} (hc : c.rest = t :: ts) :
    Passes 1 c c.next := ⟨rfl, by rw [c.rest_next hc, hc, List.length_cons]⟩

/-- Both places pass their next token. -/
theorem advance {t u : Token} {ts us : List Token} {f : Unit → Production γ}
    {g : Unit → Production δ} (h : Abreast c d) (hc : c.rest = t :: ts) (hd : d.rest = u :: us)
    (hf : ∀ c' d' : Cursor, c'.rest = ts → d'.rest = us → Abreast c' d' →
      Mirrors s 0 W (f ()) (g ()) c' d') : Mirrors s 1 W (advance >>= f) (advance >>= g) c d := by
  have hmirrors := hf c.next d.next
    (c.rest_next hc) (d.rest_next hd) ⟨h.depth_eq, h.no_errors⟩
  exact of_runs (k := 0) rfl rfl (passes_advance hc) (passes_advance hd) hmirrors

/-- Both places pass the tokens that satisfy a test. -/
theorem takeWhile {test : Token → Bool} {f : List Token → Production γ}
    {g : List Token → Production δ} (h : Abreast c d)
    (hf : ∀ c' d' : Cursor, c'.rest = c.rest.dropWhile test →
      d'.rest = d.rest.dropWhile test → Abreast c' d' →
        Mirrors s 0 W (f (c.rest.takeWhile test)) (g (d.rest.takeWhile test)) c' d') :
    Mirrors s 0 W (takeWhile test >>= f) (takeWhile test >>= g) c d := by
  have passes (e : Cursor) : Passes 0 e { e with stream := (e.stream.takeWhile test).2 } :=
    ⟨rfl, by rw [rest_takeWhile]; exact (List.dropWhile_suffix _).length_le⟩
  have hmirrors := hf { c with stream := (c.stream.takeWhile test).2 }
    { d with stream := (d.stream.takeWhile test).2 } (rest_takeWhile c test) (rest_takeWhile d test)
    ⟨h.depth_eq, h.no_errors⟩
  unfold Cursor.rest at hmirrors
  rw [← c.stream.takeWhile_fst_eq, ← d.stream.takeWhile_fst_eq] at hmirrors
  intro a c' hrun
  obtain ⟨b, d', hrun', hab, htracks, hleft, hright⟩ := hmirrors a c' hrun
  exact ⟨b, d', hrun', hab, htracks, (passes c).trans hleft, (passes d).trans hright⟩

/-- The layout at two tracked places is read to two tracked places, though it need not be the same.
-/
theorem layout (h : s.Tracks c d) : Mirrors s 0 (fun _ _ ↦ True) layout layout c d := by
  refine takeWhile h.toAbreast fun c' d' hc' hd' h' ↦ .pure ⟨h', ?_⟩ trivial
  rw [hc', hd']
  exact h.like.dropWhile_isLayout

/-- A phrase one level deeper. -/
theorem nested (h : s.Tracks c d) (hp : ∀ c' d', s.Tracks c' d' → Mirrors s n V p q c' d') :
    Mirrors s n V (nested p) (nested q) c d := by
  intro a c' hrun
  have hdeep := not_isTooDeep_of_nested hrun
  have hdeep' : d.isTooDeep = false := by rwa [Cursor.isTooDeep, ← h.depth_eq]
  obtain ⟨c'', hrun', rfl⟩ := run_nested_ok hrun
  obtain ⟨b, d'', hq, hab, htracks, hleft, hright⟩ := hp { c with depth := c.depth + 1 }
    { d with depth := d.depth + 1 } ⟨⟨congrArg (· + 1) h.depth_eq, h.no_errors⟩, h.like⟩ a c'' hrun'
  exact ⟨b, _, run_nested_of_ok hdeep' hq, hab,
    ⟨⟨congrArg (· - 1) htracks.depth_eq, htracks.no_errors⟩, htracks.like⟩,
    ⟨congrArg (· - 1) hleft.depth_eq, hleft.length_le⟩,
    ⟨congrArg (· - 1) hright.depth_eq, hright.length_le⟩⟩

end Mirrors

/-! ### Repetition -/

/-- Both rounds give nothing, or both go on behind a token. -/
def MirrorsRound (s : Seam) (R : σ → τ → Prop) (p : Production (Option σ))
    (q : Production (Option τ)) (c d : Cursor) : Prop :=
  ∀ o c', p.run c = (.ok o, c') → ∃ o' d', q.run d = (.ok o', d') ∧ s.Tracks c' d' ∧
    ((o = none ∧ o' = none ∧ Passes 0 c c' ∧ Passes 0 d d') ∨
      ∃ x y, o = some x ∧ o' = some y ∧ R x y ∧ Passes 1 c c' ∧ Passes 1 d d')

namespace MirrorsRound

variable {R : σ → τ → Prop} {p : Production (Option σ)} {q : Production (Option τ)}

/-- Rounds that both stop where they are mirror each other. -/
theorem stop (hp : p.run c = (.ok none, c)) (hq : q.run d = (.ok none, d)) (h : s.Tracks c d) :
    MirrorsRound s R p q c d := by
  intro o c' hrun
  obtain ⟨ho, rfl⟩ := Prod.mk.inj (hp.symm.trans hrun)
  exact ⟨none, d, hq, h, .inl ⟨(Except.ok.inj ho).symm, rfl, .refl, .refl⟩⟩

theorem current {f : Option Token → Production (Option σ)}
    {g : Option Token → Production (Option τ)}
    (h : MirrorsRound s R (f c.rest.head?) (g d.rest.head?) c d) :
    MirrorsRound s R (current? >>= f) (current? >>= g) c d := by
  rw [← c.current?_eq_head?, ← d.current?_eq_head?] at h
  exact h

/-- A round may first ask whether a parameter starts. -/
theorem startsParameter {f : Bool → Production (Option σ)} {g : Bool → Production (Option τ)}
    (h : MirrorsRound s R (f (opensParameter c.rest)) (g (opensParameter d.rest)) c d) :
    MirrorsRound s R (startsParameter .cell >>= f) (startsParameter .cell >>= g) c d := by
  unfold Cursor.rest at h
  rw [← parameterAhead_cell, ← parameterAhead_cell] at h
  exact h

/-- Rounds that both go on, by at least one token, mirror each other. -/
theorem step (h : Mirrors s 1 (fun o o' ↦ ∃ x y, o = some x ∧ o' = some y ∧ R x y) p q c d) :
    MirrorsRound s R p q c d := by
  intro o c' hrun
  obtain ⟨o', d', hq, ⟨x, y, ho, ho', hxy⟩, htracks, hpast⟩ := h o c' hrun
  exact ⟨o', d', hq, htracks, .inr ⟨x, y, ho, ho', hxy, hpast⟩⟩

end MirrorsRound

variable {R : σ → τ → Prop} {round : σ → Production (Option σ)} {round' : τ → Production (Option τ)}

/-- Both runs have rounds enough as long as there are more than tokens left. -/
theorem Mirrors.rounds (hround : ∀ x y c d, R x y → s.Tracks c d →
    MirrorsRound s R (round x) (round' y) c d) (m k : Nat) {x : σ} {y : τ} (hm : c.rest.length < m)
    (hk : d.rest.length < k) (hxy : R x y) (h : s.Tracks c d) :
    Mirrors s 0 R (rounds round m x) (rounds round' k y) c d := by
  induction m generalizing k x y c d with
  | zero => omega
  | succ m ih =>
    obtain ⟨k, rfl⟩ : ∃ j, k = j + 1 := ⟨k - 1, by omega⟩
    intro a c'' hrun
    obtain ⟨o, c', hfirst, hrest⟩ := run_bind_ok hrun
    obtain ⟨o', d', hfirst', htracks,
        ⟨rfl, rfl, hleft, hright⟩ | ⟨x', y', rfl, rfl, hxy', hleft, hright⟩⟩ :=
      hround x y c d hxy h o c' hfirst
    · cases hrest
      exact ⟨y, d', run_bind_of_ok hfirst', hxy, htracks, hleft, hright⟩
    · have := hleft.length_le
      have := hright.length_le
      obtain ⟨b, d'', hrun', hab, htracks', hpast, hpast'⟩ :=
        ih k (by omega) (by omega) hxy' htracks a c'' hrest
      exact ⟨b, d'', (run_bind_of_ok hfirst').trans hrun', hab, htracks',
        (hleft.weaken (Nat.zero_le 1)).trans hpast, (hright.weaken (Nat.zero_le 1)).trans hpast'⟩

/-- Loops mirror each other if their rounds do; each round passes a token, so the places stay in
step. -/
theorem Mirrors.loop (hround : ∀ x y c d, R x y → s.Tracks c d →
    MirrorsRound s R (round x) (round' y) c d) {x : σ} {y : τ} (hxy : R x y) (h : s.Tracks c d) :
    Mirrors s 0 R (loop round x) (loop round' y) c d := by
  have hleft : c.rest.length = c.stream.size - c.stream.position := c.stream.rest_length
  have hright : d.rest.length = d.stream.size - d.stream.position := d.stream.rest_length
  exact get (rounds hround _ _ (by omega) (by omega) hxy h)

end Production

end TransportDeck
