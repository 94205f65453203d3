import TransportDeck.Grammar.Lists
import TransportDeck.Proofs.Grammar.Mirroring

/-!
# Values and parameters that mirror each other

In front of a seam the values, classifiers and parameters of two records are the same up to layout.
-/

namespace TransportDeck.Production

open Seam

variable {s : Seam} {c d : Cursor}

namespace Mirrors

/-! ## Values -/

/-- The same token is read as the same value. -/
theorem value_of_inside (h : s.Tracks c d) (hinside : s.Inside c.rest d.rest) (kind : ValueKind)
    (expected : String) : Mirrors s 1 (fun f g ↦ f.bare = g.bare) (value kind expected)
      (value kind expected) c d := by
  obtain ⟨k, text, p, q, ts, us, hc, hd, hlike⟩ := hinside.exists_cons
  refine .current ?_
  rw [hc, hd, List.head?_cons, List.head?_cons, Option.filter_some, Option.filter_some]
  have haccepts : accepts kind ⟨k, text, p⟩ = accepts kind ⟨k, text, q⟩ := rfl
  rw [← haccepts]
  split_ifs
  · dsimp only
    cases Field.parse? text kind none with
    | none => exact .unexpected
    | some f =>
      refine advance h.toAbreast hc hd fun c' d' hc' hd' h' ↦ ?_
      have htracks : s.Tracks c' d' := ⟨h', hc' ▸ hd' ▸ hlike⟩
      exact (layout htracks).bind fun _ _ _ _ _ h'' ↦ .pure h'' rfl
  · exact .unexpected

/-- A number does not start a parameter. -/
theorem run_value_ne_ok (h : Idle c.rest) {kind : ValueKind} (hkind : kind ≠ .text)
    (expected : String) (f : Field) (c' : Cursor) :
    (Production.value kind expected).run c ≠ (.ok f, c') := by
  have hnone : c.rest.head?.filter (accepts kind) = none := by
    refine h.filter_eq_none fun t ht ↦ isInner_of_isNumber ?_
    cases kind with
    | text => exact absurd rfl hkind
    | int | real => exact ht
  have hcurrent : (current?).run c = (.ok c.rest.head?, c) :=
    congrArg (fun t ↦ (Except.ok t, c)) c.current?_eq_head?
  unfold Production.value
  rw [run_bind_of_ok hcurrent, hnone]
  rintro ⟨⟩

theorem value (h : s.Tracks c d) {kind : ValueKind} (hkind : kind ≠ .text) (expected : String) :
    Mirrors s 1 (fun f g ↦ f.bare = g.bare) (value kind expected) (value kind expected) c d := by
  rcases h.like.inside_or_atEnd with hinside | hend
  · exact value_of_inside h hinside kind expected
  · intro f c' hrun
    exact absurd hrun (run_value_ne_ok hend.idle.1 hkind expected f c')

/-! ## Classifiers -/

theorem nameNumber? (h : s.Tracks c d) :
    Mirrors s 0 (fun o o' ↦ o = o') nameNumber? nameNumber? c d := by
  refine .current ?_
  rcases h.like.inside_or_atEnd with hinside | hend
  · obtain ⟨k, text, p, q, ts, us, hc, hd, hlike⟩ := hinside.exists_cons
    have hunsigned : isUnsigned ⟨k, text, q⟩ = isUnsigned ⟨k, text, p⟩ := rfl
    rw [hc, hd, List.head?_cons, List.head?_cons, Option.filter_some, Option.filter_some, hunsigned]
    split_ifs
    · dsimp only
      cases Field.parse? text .int none with
      | none => exact .pure h rfl
      | some f =>
        refine weaken (n := 1) ?_ (Nat.zero_le _)
        exact advance h.toAbreast hc hd fun c' d' hc' hd' h' ↦ .pure ⟨h', hc' ▸ hd' ▸ hlike⟩ rfl
    · exact .pure h rfl
  · have hnone {ts : List Token} (hidle : Idle ts) :
        (ts.head?.filter fun t ↦ t.kind.isNumber && isUnsigned t) = none := by
      refine hidle.filter_eq_none fun t ht ↦ isInner_of_isNumber ?_
      rw [Bool.and_eq_true] at ht
      exact ht.1
    rw [hnone hend.idle.1, hnone hend.idle.2]
    exact .pure h rfl

/-- Particles are read up to the same place. -/
theorem particles? (h : s.Tracks c d) :
    Mirrors s 0 (fun o o' ↦ o = o') particles? particles? c d := by
  refine .currentKind ?_
  rcases h.like.inside_or_atEnd with hinside | hend
  · obtain ⟨⟨k, text, p⟩, ⟨k', text', q⟩, ms, ns, ls, ks, hsplit⟩ := hinside
    obtain rfl : k = k' := (List.forall₂_cons.mp hsplit.alike).1.kind_eq
    have hc := hsplit.left_eq
    have hd := hsplit.right_eq
    rw [hc, hd] at hsplit
    rw [hc, hd]
    by_cases hcolon : k = .colon
    · subst hcolon
      obtain ⟨htext, hlike⟩ := hsplit.takeWhile_particles rfl
      refine weaken (n := 1) (get (advance h.toAbreast hc hd fun c' d' hc' hd' h' ↦ ?_))
        (Nat.zero_le _)
      refine takeWhile h' fun c'' d'' hc'' hd'' h'' ↦ ?_
      rw [hc', hd', htext]
      dsimp only
      cases ParticleList.parse? _ with
      | none => exact .throw
      | some ps => exact .pure ⟨h'', by rwa [hc'', hd'', hc', hd']⟩ rfl
    · have hne : (some k == some TokenKind.colon) = false := by simpa using hcolon
      simp only [List.cons_append, List.head?_cons, Option.map_some, hne,
        Bool.false_eq_true, if_false]
      exact .pure h rfl
  · rw [hend.idle.1.kind_ne ⟨rfl, rfl, rfl⟩, hend.idle.2.kind_ne ⟨rfl, rfl, rfl⟩]
    exact .pure h rfl

/-- The mark in front of a name, if there is one; the name itself stands in front of the seam. -/
theorem modifier (h : s.Tracks c d) (hinside : s.Inside c.rest d.rest)
    (hopen : opensParameter c.rest = true) {f g : Option Field → Production Classifier}
    {V : Classifier → Classifier → Prop}
    (hf : ∀ o c' d', s.Tracks c' d' → s.Inside c'.rest d'.rest → Mirrors s 1 V (f o) (g o) c' d') :
    Mirrors s 1 V (Production.word? isMark >>= f) (Production.word? isMark >>= g) c d := by
  have hall := hinside
  obtain ⟨⟨k, text, p⟩, ⟨k', text', q⟩, ms, ns, ls, ks, hsplit⟩ := hinside
  have halike := (List.forall₂_cons.mp hsplit.alike).1
  obtain rfl : k = k' := halike.kind_eq
  obtain rfl : text = text' := halike.text_eq
  have hc := hsplit.left_eq
  have hd := hsplit.right_eq
  have hmark : isMark ⟨k, text, q⟩ = isMark ⟨k, text, p⟩ := rfl
  rw [List.cons_append] at hc hd
  by_cases hm : isMark ⟨k, text, p⟩ = true
  · obtain ⟨v, w, ms, ns, rfl, rfl⟩ : ∃ v w ms' ns', ms = v :: ms' ∧ ns = w :: ns' := by
      cases ms with
      | cons v ms =>
        obtain ⟨w, ns, -, -, rfl⟩ :=
          List.forall₂_cons_left_iff.mp (List.forall₂_cons.mp hsplit.alike).2
        exact ⟨v, w, ms, ns, rfl, rfl⟩
      | nil =>
        -- The name would stand behind the seam.
        have hapart : IsApart (ls ++ s.left) := by
          refine (hsplit.edge.resolve_left fun hlast ↦ ?_).1
          have := hlast _ rfl
          simp [goesOn, hm] at this
        rw [hc, opensParameter, if_pos hm, Option.any_eq_true] at hopen
        obtain ⟨t, ht, hword⟩ := hopen
        rw [(hapart t ht).1] at hword
        cases hword
    have hlike := hsplit.tail
    rw [← c.rest_next hc, ← d.rest_next hd] at hlike
    have hnext :=
      hf (Field.parse? text .text none) c.next d.next ⟨⟨h.depth_eq, h.no_errors⟩, hlike.like⟩
        ⟨v, w, ms, ns, ls, ks, hlike⟩
    exact of_runs (k := 0) (run_word?_of_pos hc hm) (run_word?_of_pos hd (hmark.trans hm))
      (passes_advance hc) (passes_advance hd) (hnext.weaken (Nat.zero_le _))
  · have hm' : ¬isMark ⟨k, text, q⟩ = true := hmark ▸ hm
    exact of_runs (n := 0) (run_word?_of_neg hc hm) (run_word?_of_neg hd hm') .refl .refl
      (hf none c d h hall)

/-- A parameter that starts in front of the seam has its name there. -/
theorem classifier (h : s.Tracks c d) (hinside : s.Inside c.rest d.rest)
    (hopen : opensParameter c.rest = true) :
    Mirrors s 1 (fun a b ↦ a.bare = b.bare) (classifier .cell) (classifier .cell) c d := by
  refine modifier h hinside hopen fun modifier c₁ d₁ h₁ hinside₁ ↦ ?_
  obtain ⟨k, text, p, q, ts, us, hc, hd, hlike⟩ := hinside₁.exists_cons
  have hword : isWord ⟨k, text, q⟩ = isWord ⟨k, text, p⟩ := rfl
  by_cases hw : isWord ⟨k, text, p⟩ = true
  · refine of_runs (k := 0) (run_word?_of_pos hc hw) (run_word?_of_pos hd (hword.trans hw))
      (passes_advance hc) (passes_advance hd) ?_
    rw [← c₁.rest_next hc, ← d₁.rest_next hd] at hlike
    have h₂ : s.Tracks c₁.next d₁.next :=
      ⟨⟨h₁.depth_eq, h₁.no_errors⟩, hlike⟩
    cases Field.parse? text .text none with
    | none => exact .unexpected
    | some name =>
      refine (nameNumber? h₂).bind fun number _ c₃ d₃ hnumber h₃ ↦ ?_
      refine (particles? h₃).bind fun particles _ c₄ d₄ hparticles h₄ ↦ ?_
      subst hnumber hparticles
      exact (layout h₄).bind fun _ _ _ _ _ h₅ ↦ .pure h₅ rfl
  · have hw' : ¬isWord ⟨k, text, q⟩ = true := hword ▸ hw
    refine of_runs (n := 0) (k := 1) (run_word?_of_neg hc hw)
      (run_word?_of_neg hd hw') .refl .refl ?_
    exact .unexpected

theorem separator? (h : s.Tracks c d) : Mirrors s 0 (fun o o' ↦ o.isSome = o'.isSome)
    (separator? .cell) (separator? .cell) c d := by
  refine .currentKind ?_
  rcases h.like.inside_or_atEnd with hinside | hend
  · obtain ⟨k, text, p, q, ts, us, hc, hd, hlike⟩ := hinside.exists_cons
    rw [hc, hd, List.head?_cons, List.head?_cons]
    dsimp only [Option.map_some]
    split_ifs with hequals hneeds
    · refine weaken (n := 1) (advance h.toAbreast hc hd fun c' d' hc' hd' h' ↦ ?_) (Nat.zero_le _)
      have htracks : s.Tracks c' d' := ⟨h', hc' ▸ hd' ▸ hlike⟩
      exact (layout htracks).bind fun _ _ _ _ _ h'' ↦ .pure h'' rfl
    · exact .unexpected
    · exact .pure h rfl
  · rw [hend.idle.1.kind_ne ⟨rfl, rfl, rfl⟩, hend.idle.2.kind_ne ⟨rfl, rfl, rfl⟩]
    exact .pure h rfl

/-! ## Lists -/

variable {α β : Type}

theorem orMalformed (h : s.Tracks c d) {γ : Type} {f : α → γ} {e e' : Except ShorthandError α}
    (he : e.map f = e'.map f) (p q : Span) :
    Mirrors s 0 (fun a b ↦ f a = f b) (orMalformed p e) (orMalformed q e') c d := by
  cases e with
  | error e => exact .throw
  | ok a =>
    obtain ⟨b, rfl, hab⟩ := Except.exists_of_map_eq he rfl
    exact .pure h hab

theorem leadOf (h : s.Tracks c d) (kind : ShorthandKind) (p q : Span) {l l' : FieldList}
    (hl : l.bare = l'.bare) : Mirrors s 0 (fun a b ↦ a.1.bare = b.1.bare ∧ a.2.bare = b.2.bare)
      (leadOf kind p l) (leadOf kind q l') c d := by
  have hrun : l.endsWithRun = l'.endsWithRun := by
    rw [← l.endsWithRun_bare, hl, l'.endsWithRun_bare]
  have hlast : l.last?.bind Field.signed = l'.last?.bind Field.signed := by
    have hbare (l : FieldList) : l.last?.bind Field.signed = l.bare.last?.bind Field.signed := by
      rw [l.last?_bare]
      cases l.last? <;> rfl
    rw [hbare l, hl, ← hbare l']
  have hpop : l.popField?.map (fun r ↦ (r.1.bare, r.2.bare)) =
      l'.popField?.map fun r ↦ (r.1.bare, r.2.bare) := by
    rw [← l.popField?_bare, hl, l'.popField?_bare]
  unfold Production.leadOf
  rw [← hrun]
  split_ifs
  · exact .pure h ⟨congrArg Lead.chained hlast, hl⟩
  · cases hl' : l.popField? with
    | none => exact .throw
    | some r =>
      rw [hl'] at hpop
      obtain ⟨r', hr', heq⟩ := Option.map_eq_some_iff.mp hpop.symm
      obtain ⟨hfield, hrest⟩ := Prod.mk.inj heq
      rw [hr']
      exact .pure h ⟨congrArg Lead.owned hfield.symm, hrest.symm⟩

theorem shorthand (h : s.Tracks c d) (kind : ShorthandKind) (text : String) (k : TokenKind)
    (p q : Span) {l l' : FieldList} (hl : l.bare = l'.bare) :
    Mirrors s 0 (fun a b ↦ a.bare = b.bare)
      (shorthand .cell kind ⟨k, text, p⟩ l) (shorthand .cell kind ⟨k, text, q⟩ l') c d := by
  have hid : l.nextId = l'.nextId := (FieldList.mk.inj hl).2.2.1
  have htaken := FieldList.bare_takeId hl
  unfold Production.shorthand
  rw [hid]
  split_ifs
  · exact .throw
  cases kind with
  | jump =>
    refine (layout h).bind fun _ _ _ _ _ h₁ ↦ ?_
    exact (orMalformed h₁ (Shorthand.map_bare_jump _ _ _ _) p q).bind fun _ _ _ _ hs h₂ ↦
      .pure h₂ (FieldList.bare_pushRun htaken hs)
  | copies =>
    refine (leadOf h _ p q htaken).bind fun a b _ _ hab h₁ ↦ ?_
    refine (layout h₁).bind fun _ _ _ _ _ h₂ ↦ ?_
    exact (orMalformed h₂ (Shorthand.map_bare_copies _ _ _ _ hab.1) p q).bind fun _ _ _ _ hs h₃ ↦
      .pure h₃ (FieldList.bare_pushRun hab.2 hs)
  | multiply =>
    refine (leadOf h _ p q htaken).bind fun a b _ _ hab h₁ ↦ ?_
    refine (layout h₁).bind fun _ _ _ _ _ h₂ ↦ ?_
    exact (orMalformed h₂ (Shorthand.map_bare_multiply _ _ _ _ hab.1) p q).bind fun _ _ _ _ hs h₃ ↦
      .pure h₃ (FieldList.bare_pushRun hab.2 hs)
  | linear | logarithmic =>
    refine (leadOf h _ p q htaken).bind fun a b _ _ hab h₁ ↦ ?_
    refine (layout h₁).bind fun _ _ _ _ _ h₂ ↦ ?_
    refine ((value h₂ (by decide) _).weaken (Nat.zero_le 1)).bind fun _ _ _ _ hlast h₃ ↦ ?_
    exact (orMalformed h₃ (Shorthand.map_bare_interpolate _ _ _ _ _ hab.1 hlast) p q).bind
      fun _ _ _ _ hs h₄ ↦ .pure h₄ (FieldList.bare_pushRun hab.2 hs)

end Mirrors

/-- No item of a list starts where a parameter may. -/
theorem run_item?_of_idle (h : Idle c.rest) (preferred : ValueKind) (l : FieldList) :
    (item? .cell preferred l).run c = (.ok none, c) := by
  have hstart : (startsParameter .cell).run c = (.ok (opensParameter c.rest), c) :=
    congrArg (fun b ↦ (Except.ok b, c)) (parameterAhead_cell c.stream)
  have hcurrent : (current?).run c = (.ok c.rest.head?, c) :=
    congrArg (fun t ↦ (Except.ok t, c)) c.current?_eq_head?
  unfold Production.item?
  rw [run_bind_of_ok hcurrent]
  cases hrest : c.rest with
  | nil => rfl
  | cons t ts =>
    obtain ⟨k, text, p⟩ := t
    have hidle := h ⟨k, text, p⟩ (by rw [hrest]; rfl)
    rw [List.head?_cons]
    -- What is left are words, which start a parameter, and tokens that no list takes.
    cases k <;> first
      | (rcases hidle with hidle | hidle | hidle <;> cases hidle; done)
      | (dsimp only
         rw [run_bind_of_ok hstart, hrest]
         split_ifs with hopen hitem
         all_goals first | rfl | exact absurd rfl hopen | exact (Bool.false_ne_true hitem).elim)

namespace Mirrors

theorem item? {preferred : ValueKind} {l l' : FieldList}
    (hl : l.bare = l'.bare) (h : s.Tracks c d) : MirrorsRound s (fun a b ↦ a.bare = b.bare)
      (item? .cell preferred l) (item? .cell preferred l') c d := by
  rcases h.like.inside_or_atEnd with hinside | hend
  swap
  · exact .stop (run_item?_of_idle hend.idle.1 _ _) (run_item?_of_idle hend.idle.2 _ _) h
  have pushed {kind : ValueKind} (expected : String) : MirrorsRound s (fun a b ↦ a.bare = b.bare)
      (do return some (l.pushField (← Production.value kind expected)))
      (do return some (l'.pushField (← Production.value kind expected))) c d :=
    .step (map ((value_of_inside h hinside kind expected).mono fun f g hfg ↦
      ⟨_, _, rfl, rfl, FieldList.bare_pushField hl hfg⟩))
  have hopen := hinside.opensParameter_eq
  obtain ⟨k, text, p, q, ts, us, hc, hd, hlike⟩ := hinside.exists_cons
  refine .current ?_
  rw [hc, hd, List.head?_cons, List.head?_cons]
  have stopped :
    MirrorsRound s (fun a b ↦ FieldList.bare a = FieldList.bare b) (return none) (return none)
      c d := .stop rfl rfl h
  have isItem_eq : isItem .cell ⟨k, text, q⟩ = isItem .cell ⟨k, text, p⟩ := rfl
  have other : MirrorsRound s (fun a b ↦ FieldList.bare a = FieldList.bare b)
      (do
        if ← startsParameter .cell then return none
        else if isItem .cell ⟨k, text, p⟩ then
          return some (l.pushField (← Production.value .text "data item"))
        else return none)
      (do
        if ← startsParameter .cell then return none
        else if isItem .cell ⟨k, text, q⟩ then
          return some (l'.pushField (← Production.value .text "data item"))
        else return none) c d := by
    refine .startsParameter ?_
    rw [isItem_eq, hopen]
    split_ifs
    · exact stopped
    · exact pushed _
    · exact stopped
  cases k
  case number | zero => exact pushed "number"
  case shorthand kind =>
    refine .step (advance h.toAbreast hc hd fun c' d' hc' hd' h' ↦ ?_)
    have htracks : s.Tracks c' d' := ⟨h', hc' ▸ hd' ▸ hlike⟩
    exact map ((shorthand htracks kind text _ p q hl).mono fun a b hab ↦ ⟨a, b, rfl, rfl, hab⟩)
  all_goals exact other

/-- Lists end at the same place. -/
theorem values (preferred : ValueKind) (h : s.Tracks c d) :
    Mirrors s 0 (fun a b ↦ a.bare = b.bare) (values .cell preferred)
      (values .cell preferred) c d := by
  refine map ((loop (R := fun a b ↦ a.bare = b.bare) ?_ rfl h).mono fun a b hab ↦ ?_)
  · exact fun l l' c' d' hl h' ↦ item? hl h'
  · rw [a.bare_detachTail, b.bare_detachTail, hab]

/-! ## Parameters -/

/-- A parameter that starts in front of the seam ends there, too. -/
theorem parameter (h : s.Tracks c d) (hinside : s.Inside c.rest d.rest)
    (hopen : opensParameter c.rest = true) :
    Mirrors s 1 (fun a b ↦ a.bare = b.bare) (parameter .cell) (parameter .cell) c d := by
  refine (classifier h hinside hopen).bind fun cl cl' c₁ d₁ hcl h₁ ↦ ?_
  refine (separator? h₁).bind fun sep sep' c₂ d₂ hsep h₂ ↦ ?_
  refine (values .int h₂).bind fun vs vs' c₃ d₃ hvs h₃ ↦ ?_
  have hempty : vs.isEmpty = vs'.isEmpty := by rw [← vs.isEmpty_bare, hvs, vs'.isEmpty_bare]
  rw [hempty, hsep]
  split_ifs
  · exact .unexpected
  · refine .pure h₃ ?_
    have hmap : (sep.map fun _ ↦ Layout.empty) = sep'.map fun _ ↦ Layout.empty := by
      cases sep <;> cases sep' <;> first | rfl | cases hsep
    rw [Parameter.bare, Parameter.bare, hcl, hvs, hmap]

end Mirrors

end TransportDeck.Production
