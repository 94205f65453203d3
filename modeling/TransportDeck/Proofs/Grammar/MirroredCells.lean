import TransportDeck.Grammar.Records
import TransportDeck.Proofs.Grammar.MirroredLists
import TransportDeck.Proofs.Grammar.Parsing

/-!
# Cells that mirror each other

In front of a seam the geometries of two cells, and what stands before them, are the same up to
layout.
-/

namespace TransportDeck

open Seam

namespace Production

/-- The number at the edge does not depend on layout. -/
theorem edgeValue_bare (g : Geometry) (fuel id : Nat) :
    edgeValue g.bare fuel id = edgeValue g fuel id := by
  induction fuel generalizing id with
  | zero => rfl
  | succ fuel ih =>
    rw [edgeValue, edgeValue, g.entry?_bare]
    cases g.entry? id with
    | none => rfl
    | some e =>
      cases e with
      | leaf f => rfl
      | run r =>
        simp only [Option.map_some, GeometryEntry.bare, Shorthand.bare, List.getLast?_map]
        cases r.members.getLast? <;> rfl
      | branch b => exact ih _

/-- The number at the right edge of a geometry does not depend on layout. -/
theorem edgeValue_eq_of_bare {g g' : Geometry} (h : g.bare = g'.bare) (fuel id : Nat) :
    edgeValue g fuel id = edgeValue g' fuel id := by
  rw [← edgeValue_bare, h, edgeValue_bare]

end Production

/-! ## Building -/

namespace Building

variable {α β γ δ : Type} {s : Seam} {n : Nat} {c d : Cursor} {g g' : Geometry}

/-- What is built onto two geometries that are the same up to layout, so remains. -/
def Mirrors (s : Seam) (n : Nat) (V : α → β → Prop) (b : Building α) (b' : Building β)
    (g g' : Geometry) (c d : Cursor) : Prop :=
  Production.Mirrors s n (fun x y ↦ V x.1 y.1 ∧ x.2.bare = y.2.bare) (b g) (b' g') c d

namespace Mirrors

variable {V : α → β → Prop} {W : γ → δ → Prop} {b : Building α} {b' : Building β} {p : Production α}
  {q : Production β} {f : α → Building γ} {f' : β → Building δ}

theorem pure {a : α} {a' : β} (h : s.Tracks c d) (hg : g.bare = g'.bare) (ha : V a a') :
    Mirrors s 0 V (pure a) (pure a') g g' c d :=
  Production.Mirrors.pure h ⟨ha, hg⟩

/-- Two builders mirror each other if their first halves do and the rest mirrors on related results.
-/
theorem bind (hb : Mirrors s n V b b' g g' c d)
    (hf : ∀ a a' g₁ g₁' c' d', V a a' → g₁.bare = g₁'.bare → s.Tracks c' d' →
      Mirrors s 0 W (f a) (f' a') g₁ g₁' c' d') :
    Mirrors s n W (b >>= f) (b' >>= f') g g' c d :=
  Production.Mirrors.bind hb fun x y c' d' hxy h ↦ hf x.1 y.1 x.2 y.2 c' d' hxy.1 hxy.2 h

/-- A production leaves the geometry alone. -/
theorem lift (hp : Production.Mirrors s n V p q c d)
    (hf : ∀ a a' c' d', V a a' → s.Tracks c' d' → Mirrors s 0 W (f a) (f' a') g g' c' d') :
    Mirrors s n W (liftM p >>= f) (liftM q >>= f') g g' c d := by
  intro x c'' hrun
  obtain ⟨⟨a, g₁⟩, c', hfirst, hrest⟩ := Production.run_bind_ok hrun
  obtain ⟨a₀, c₀, hp', hpure⟩ := Production.run_bind_ok hfirst
  cases hpure
  obtain ⟨a', d', hq, ha, htracks, hleft, hright⟩ := hp a c' hp'
  obtain ⟨y, d'', hrun', hxy, htracks', hleft', hright'⟩ := hf a a' c' d' ha htracks x c'' hrest
  have hlifted : ((liftM q : Building β) g').run d = (.ok (a', g'), d') :=
    (Production.run_bind_of_ok hq).trans rfl
  exact ⟨y, d'', (Production.run_bind_of_ok hlifted).trans hrun', hxy, htracks', hleft.trans hleft',
    hright.trans hright'⟩

/-- Tokens that are alike are passed at both places. -/
theorem advance {t u : Token} {ts us : List Token} {f : Unit → Building γ} {f' : Unit → Building δ}
    (h : Abreast c d) (hc : c.rest = t :: ts) (hd : d.rest = u :: us) (hlike : s.Like ts us)
    (hf : s.Tracks c.next d.next → Mirrors s 0 W (f ()) (f' ()) g g' c.next d.next) :
    Mirrors s 1 W (liftM Production.advance >>= f) (liftM Production.advance >>= f') g g' c d := by
  have htracks : s.Tracks c.next d.next :=
    ⟨⟨h.depth_eq, h.no_errors⟩, by rwa [c.rest_next hc, d.rest_next hd]⟩
  have hmirrors : Production.Mirrors s 0 (fun x y ↦ W x.1 y.1 ∧ x.2.bare = y.2.bare) (f () g)
    (f' () g')
      c.next d.next := hf htracks
  intro x c' hrun'
  obtain ⟨y, d', hq, hxy, htracks', hleft, hright⟩ := hmirrors x c' hrun'
  exact ⟨y, d', hq, hxy, htracks', (Production.Mirrors.passes_advance hc).trans hleft,
    (Production.Mirrors.passes_advance hd).trans hright⟩

/-- Entries with one bare form are placed at one place. -/
theorem place {e e' : GeometryEntry} {f : Nat → Building γ} {f' : Nat → Building δ}
    (hg : g.bare = g'.bare) (he : e.bare = e'.bare) (hf : (g.push e).bare = (g'.push e').bare →
      Mirrors s n W (f g.size) (f' g.size) (g.push e) (g'.push e') c d) :
    Mirrors s n W (Production.place e >>= f) (Production.place e' >>= f') g g' c d := by
  have hplaced := hf (Geometry.bare_push hg he)
  have hsize := Geometry.size_eq_of_bare hg
  change Production.Mirrors s n _ (f g.size (g.push e)) (f' g'.size (g'.push e')) c d
  rw [← hsize]
  exact hplaced

theorem get {f : Geometry → Building γ} {f' : Geometry → Building δ}
    (h : Mirrors s n W (f g) (f' g') g g' c d) : Mirrors s n W (get >>= f) (get >>= f') g g' c d :=
  h

theorem current {f : Option Token → Building γ} {f' : Option Token → Building δ}
    (h : Mirrors s n W (f c.rest.head?) (f' d.rest.head?) g g' c d) :
    Mirrors s n W (liftM Production.current? >>= f)
      (liftM Production.current? >>= f') g g' c d := by
  rw [← c.current?_eq_head?, ← d.current?_eq_head?] at h
  exact h

theorem currentKind {f : Option TokenKind → Building γ} {f' : Option TokenKind → Building δ}
    (h : Mirrors s n W (f (c.rest.head?.map (·.kind))) (f' (d.rest.head?.map (·.kind))) g g' c d) :
    Mirrors s n W (liftM Production.currentKind? >>= f)
      (liftM Production.currentKind? >>= f') g g' c d := by
  rw [← c.current?_eq_head?, ← d.current?_eq_head?] at h
  exact h

theorem throw {e : SyntaxError} : Mirrors s n V (throw e : Building α) b' g g' c d := by
  rintro _ _ ⟨⟩

theorem unexpected {expected : String} :
    Mirrors s n V (liftM (Production.unexpected expected : Production α)) b' g g' c d := by
  rintro _ _ ⟨⟩

end Mirrors

/-! ## Operands -/

/-- Two operands at the same place. -/
def SamePlace (o o' : Operand) : Prop := o.id = o'.id

/-- Wherever an operand is built, the same one is built at the other place. -/
def MirrorsOperand (s : Seam) (b b' : Building Operand) : Prop :=
  ∀ g g' c d, g.bare = g'.bare → s.Tracks c d → Mirrors s 1 SamePlace b b' g g' c d

namespace Mirrors

/-- A parenthesis is opened at both places, with the layout behind it. -/
theorem opening (mark : String) {t u : Token} {ts us : List Token} (h : Abreast c d)
    (hc : c.rest = t :: ts) (hd : d.rest = u :: us) (hlike : s.Like ts us) :
    Production.Mirrors s 1 (fun _ _ ↦ True) (Production.opening mark)
      (Production.opening mark) c d := by
  refine .advance h hc hd fun c' d' hc' hd' h' ↦ ?_
  have htracks : s.Tracks c' d' := ⟨h', hc' ▸ hd' ▸ hlike⟩
  exact (Production.Mirrors.layout htracks).bind fun _ _ _ _ _ h'' ↦ .pure h'' trivial

/-- The layout behind an operand. -/
theorem behind (h : s.Tracks c d) (hg : g.bare = g'.bare) (id : Nat) : Mirrors s 0 SamePlace
    (do return (⟨id, ← Production.layout⟩ : Operand))
      (do return (⟨id, ← Production.layout⟩ : Operand))
      g g' c d :=
  lift (Production.Mirrors.layout h) fun _ _ _ _ _ h' ↦ .pure h' hg rfl

/-- A number becomes a leaf at one place in both geometries. -/
theorem leaf {k : TokenKind} {text : String} {p q : Span} {ts us : List Token} (h : Abreast c d)
    (hg : g.bare = g'.bare) (hc : c.rest = ⟨k, text, p⟩ :: ts) (hd : d.rest = ⟨k, text, q⟩ :: us)
    (hlike : s.Like ts us) : Mirrors s 1 SamePlace (Production.leaf ⟨k, text, p⟩)
      (Production.leaf ⟨k, text, q⟩) g g' c d := by
  unfold Production.leaf
  dsimp only
  cases Field.parse? text .int none with
  | none => exact .throw
  | some f => exact advance h hc hd hlike fun h' ↦ place hg rfl fun hg' ↦ behind h' hg' _

variable {factor factor' : Building Operand}

/-- Complements mirror each other if their operands do. -/
theorem complement (hfactor : MirrorsOperand s factor factor') {t u : Token} {ts us : List Token}
    (h : Abreast c d) (hg : g.bare = g'.bare) (hc : c.rest = t :: ts) (hd : d.rest = u :: us)
    (hlike : s.Like ts us) : Mirrors s 1 SamePlace (Production.complement factor)
      (Production.complement factor') g g' c d := by
  refine lift (opening "#" h hc hd hlike) fun _ _ c₁ d₁ _ h₁ ↦ current ?_
  rcases h₁.like.inside_or_atEnd with hinside | hend
  · obtain ⟨k, text, p, q, ts', us', hc₁, hd₁, -⟩ := hinside.exists_cons
    have hstarts : Production.startsOperand ⟨k, text, q⟩ = Production.startsOperand ⟨k, text, p⟩ :=
      rfl
    simp only [hc₁, hd₁, List.head?_cons, Option.any_some, hstarts]
    split_ifs
    · refine bind ((hfactor g g' c₁ d₁ hg h₁).weaken (Nat.zero_le 1)) ?_
      intro o o' g₁ g₁' c₂ d₂ ho hg₁ h₂
      exact place hg₁ (GeometryEntry.bare_complement _ _ ho) fun hg₂ ↦ .pure h₂ hg₂ rfl
    · exact .unexpected
  · have hnone : c₁.rest.head?.any Production.startsOperand = false := by
      refine hend.idle.1.any_eq_false fun t ht ↦ ?_
      rcases Bool.or_eq_true _ _ ▸ ht with hnumber | hparen
      · exact isInner_of_isNumber hnumber
      · exact isInner_of_kind_eq (beq_iff_eq.mp hparen) ⟨rfl, rfl, rfl⟩
    rw [hnone]
    exact .unexpected

/-- Groups mirror each other if what they enclose does. -/
theorem group (hinner : MirrorsOperand s factor factor') {t u : Token} {ts us : List Token}
    (h : Abreast c d) (hg : g.bare = g'.bare) (hc : c.rest = t :: ts) (hd : d.rest = u :: us)
    (hlike : s.Like ts us) : Mirrors s 1 SamePlace (Production.group factor)
      (Production.group factor') g g' c d := by
  refine lift (opening "(" h hc hd hlike) fun _ _ c₁ d₁ _ h₁ ↦ ?_
  refine bind ((hinner g g' c₁ d₁ hg h₁).weaken (Nat.zero_le 1)) ?_
  intro o o' g₁ g₁' c₂ d₂ ho hg₁ h₂
  refine currentKind ?_
  rcases h₂.like.inside_or_atEnd with hinside | hend
  · obtain ⟨k, text, p, q, ts', us', hc₂, hd₂, hlike₂⟩ := hinside.exists_cons
    simp only [hc₂, hd₂, List.head?_cons, Option.map_some]
    split_ifs
    · refine (advance h₂.toAbreast hc₂ hd₂ hlike₂ fun h₃ ↦ ?_).weaken (Nat.zero_le 1)
      exact place hg₁ (GeometryEntry.bare_group _ _ _ _ ho) fun hg₂ ↦ behind h₃ hg₂ _
    · exact .unexpected
  · rw [hend.idle.1.kind_ne ⟨rfl, rfl, rfl⟩]
    exact .unexpected

/-- A run of surfaces is placed at one place in both geometries. -/
theorem surfaceRun (kind : ShorthandKind) {k : TokenKind} {text : String} {p q : Span}
    {ts us : List Token} {before before' : Nat} (hbefore : before = before') (h : Abreast c d)
    (hg : g.bare = g'.bare) (hc : c.rest = ⟨k, text, p⟩ :: ts) (hd : d.rest = ⟨k, text, q⟩ :: us)
    (hlike : s.Like ts us) :
    Mirrors s 1 SamePlace (Production.surfaceRun .cell kind ⟨k, text, p⟩ before)
      (Production.surfaceRun .cell kind ⟨k, text, q⟩ before') g g' c d := by
  subst hbefore
  refine advance h hc hd hlike fun h₁ ↦ ?_
  split_ifs
  · exact .throw
  refine get ?_
  have hsize := Geometry.size_eq_of_bare hg
  have hlead : Lead.bare (.chained (Production.edgeValue g g.size before)) =
      .bare (.chained (Production.edgeValue g' g'.size before)) := by
    rw [hsize, Production.edgeValue_eq_of_bare hg]
  have built {e e' : Except ShorthandError Shorthand}
    (he : e.map Shorthand.bare = e'.map Shorthand.bare) :
      Mirrors s 0 SamePlace (liftM (Production.orMalformed p e) >>= fun s ↦ (do
          let id ← Production.place (.run s)
          return (⟨id, ← Production.layout⟩ : Operand) : Building Operand))
        (liftM (Production.orMalformed q e') >>= fun s ↦ (do
          let id ← Production.place (.run s)
          return (⟨id, ← Production.layout⟩ : Operand) : Building Operand)) g g' c.next d.next :=
    lift (Production.Mirrors.orMalformed h₁ he p q) fun r r' c₂ d₂ hr h₂ ↦
      place hg (congrArg GeometryEntry.run hr) fun hg₂ ↦ behind h₂ hg₂ _
  cases kind with
  | copies => exact built ((Shorthand.map_bare_copies _ text none none hlead).trans (by rw [hsize]))
  | multiply =>
    exact built ((Shorthand.map_bare_multiply _ text none none hlead).trans (by rw [hsize]))
  | jump | linear | logarithmic => exact .throw

end Mirrors

/-! ## Chains -/

/-- Both give no operand, or both give the same one behind a token. -/
def MirrorsNext (s : Seam) (b b' : Building (Option Operand)) (g g' : Geometry) (c d : Cursor) :
    Prop :=
  ∀ r c', (b g).run c = (.ok r, c') → ∃ r' d', (b' g').run d = (.ok r', d') ∧ s.Tracks c' d' ∧
    ((r.1 = none ∧ r'.1 = none ∧ Production.Passes 0 c c' ∧ Production.Passes 0 d d') ∨
      ∃ o o', r.1 = some o ∧ r'.1 = some o' ∧ SamePlace o o' ∧ r.2.bare = r'.2.bare ∧
        Production.Passes 1 c c' ∧ Production.Passes 1 d d')

namespace MirrorsNext

variable {b b' : Building (Option Operand)}

/-- Chains that end at both places mirror each other. -/
theorem stop (h : s.Tracks c d) : MirrorsNext s (Pure.pure none) (Pure.pure none) g g' c d := by
  rintro _ _ ⟨⟩
  exact ⟨(none, g'), d, rfl, h, .inl ⟨rfl, rfl, .refl, .refl⟩⟩

/-- Chains that go on with operands at one place mirror each other. -/
theorem step (h : Mirrors s 1 (fun r r' ↦ ∃ o o', r = some o ∧ r' = some o' ∧ SamePlace o o')
    b b' g g' c d) :
    MirrorsNext s b b' g g' c d := by
  rintro ⟨_, g₁⟩ c' hrun
  obtain ⟨⟨_, g₁'⟩, d', hrun', ⟨⟨o, o', rfl, rfl, ho⟩, hg⟩, htracks, hpast⟩ := h _ _ hrun
  exact ⟨_, d', hrun', htracks, .inr ⟨o, o', rfl, rfl, ho, hg, hpast⟩⟩

/-- A further operand at one place lets both chains go on. -/
theorem operand {b b' : Building Operand} (h : Mirrors s 1 SamePlace b b' g g' c d) :
    MirrorsNext s (do return some (← b)) (do return some (← b')) g g' c d :=
  .step (h.bind fun o o' _ _ _ _ ho hg h' ↦ .pure h' hg ⟨o, o', rfl, rfl, ho⟩)

theorem current {f f' : Option Token → Building (Option Operand)}
    (h : MirrorsNext s (f c.rest.head?) (f' d.rest.head?) g g' c d) :
    MirrorsNext s (liftM Production.current? >>= f)
      (liftM Production.current? >>= f') g g' c d := by
  rw [← c.current?_eq_head?, ← d.current?_eq_head?] at h
  exact h

theorem currentKind {f f' : Option TokenKind → Building (Option Operand)}
    (h : MirrorsNext s (f (c.rest.head?.map (·.kind))) (f' (d.rest.head?.map (·.kind))) g g' c d) :
    MirrorsNext s (liftM Production.currentKind? >>= f)
      (liftM Production.currentKind? >>= f') g g' c d := by
  rw [← c.current?_eq_head?, ← d.current?_eq_head?] at h
  exact h

/-- What is made of the operand leaves no trace of layout. -/
theorem andThen {f f' : Operand → Building Operand} (h : MirrorsNext s b b' g g' c d)
    (hf : ∀ o o' g₁ g₁' c' d', SamePlace o o' → g₁.bare = g₁'.bare → s.Tracks c' d' →
      Mirrors s 0 SamePlace (f o) (f' o') g₁ g₁' c' d') :
    MirrorsNext s (do
        match ← b with
        | some o => return some (← f o)
        | none => return none)
      (do
        match ← b' with
        | some o => return some (← f' o)
        | none => return none) g g' c d := by
  intro r c'' hrun
  obtain ⟨⟨o, g₁⟩, c', hb, hrest⟩ := Production.run_bind_ok hrun
  obtain ⟨⟨o', g₁'⟩, d', hb', htracks,
      ⟨rfl, rfl, hpast⟩ | ⟨a, a', rfl, rfl, ha, hg, hleft, hright⟩⟩ :=
    h _ _ hb
  · cases hrest
    exact ⟨_, d', Production.run_bind_of_ok hb', htracks, .inl ⟨rfl, rfl, hpast⟩⟩
  · obtain ⟨⟨a₂, g₂⟩, c₂, hfa, hpure⟩ := Production.run_bind_ok hrest
    cases hpure
    obtain ⟨⟨a₂', g₂'⟩, d₂, hfa', ⟨ha₂, hg₂⟩, htracks₂, hleft₂, hright₂⟩ :=
      hf a a' g₁ g₁' c' d' ha hg htracks _ _ hfa
    have hsecond : ((do return some (← f' a') : Building (Option Operand)) g₁').run d' =
        (.ok (some a₂', g₂'), d₂) := (Production.run_bind_of_ok hfa').trans rfl
    exact ⟨_, d₂, (Production.run_bind_of_ok hb').trans hsecond, htracks₂,
      .inr ⟨a₂, a₂', rfl, rfl, ha₂, hg₂, hleft.trans hleft₂, hright.trans hright₂⟩⟩

end MirrorsNext

namespace Mirrors

/-- Loops over operands mirror each other if their rounds do. -/
theorem loopBuilding {round round' : Operand → Building (Option Operand)}
    (hround : ∀ o o' g g' c d, SamePlace o o' → g.bare = g'.bare → s.Tracks c d →
      MirrorsNext s (round o) (round' o') g g' c d) {o o' : Operand} (ho : SamePlace o o')
    (hg : g.bare = g'.bare) (h : s.Tracks c d) : Mirrors s 0 SamePlace
      (Production.loopBuilding round o) (Production.loopBuilding round' o') g g' c d := by
  refine Production.Mirrors.loop (R := fun x y ↦ SamePlace x.1 y.1 ∧ x.2.bare = y.2.bare)
    (x := (o, g)) (y := (o', g')) ?_ ⟨ho, hg⟩ h
  rintro ⟨o, g⟩ ⟨o', g'⟩ c d hstate h r c' hrun
  obtain ⟨ho, hg⟩ : SamePlace o o' ∧ g.bare = g'.bare := hstate
  obtain ⟨⟨a, g₁⟩, c'', hb, hpure⟩ := Production.run_bind_ok hrun
  obtain ⟨⟨a', g₁'⟩, d', hb', htracks, ⟨rfl, rfl, hpast⟩ | ⟨a₁, a₁', rfl, rfl, ha, hg₁, hpast⟩⟩ :=
    hround o o' g g' c d ho hg h _ _ hb
  · cases hpure
    exact ⟨none, d', Production.run_bind_of_ok hb', htracks, .inl ⟨rfl, rfl, hpast⟩⟩
  · cases hpure
    exact ⟨some (a₁', g₁'), d', Production.run_bind_of_ok hb', htracks,
      .inr ⟨(a₁, g₁), (a₁', g₁'), rfl, rfl, ⟨ha, hg₁⟩, hpast⟩⟩

/-- Operands at one place are joined at one place. -/
theorem join (op : GeometryOp) {o o' a a' : Operand} (m m' : Layout) (ho : SamePlace o o')
    (ha : SamePlace a a') (hg : g.bare = g'.bare) (h : s.Tracks c d) :
    Mirrors s 0 SamePlace (Production.join op o m a) (Production.join op o' m' a') g g' c d :=
  place hg (GeometryEntry.bare_binary m m' op ho ha) fun hg' ↦ .pure h hg' rfl

end Mirrors

/-- A builder that looks at the current token sees the first one that is left. -/
theorem run_current {f : Option Token → Building α} :
    ((liftM Production.current? >>= f) g).run c = (f c.rest.head? g).run c := by
  rw [← c.current?_eq_head?]
  rfl

/-- No operand starts where a parameter may. -/
theorem run_nextFactor?_of_idle (h : Idle c.rest) (factor : Building Operand) (before : Nat) :
    (Production.nextFactor? .cell factor before g).run c = (.ok (none, g), c) := by
  unfold Production.nextFactor?
  rw [run_current]
  cases hhead : c.rest.head? with
  | none => rfl
  | some t =>
    obtain ⟨k, text, p⟩ := t
    have hidle := h _ hhead
    cases k <;> first | rfl | (rcases hidle with hidle | hidle | hidle <;> cases hidle)

section

variable {factor factor' : Building Operand} (hfactor : MirrorsOperand s factor factor')

include hfactor

/-- Both chains go on with a factor, or both end, for the seam lets no factor start. -/
theorem MirrorsNext.nextFactor? {before before' : Nat} (hbefore : before = before')
    (hg : g.bare = g'.bare) (h : s.Tracks c d) :
    MirrorsNext s (Production.nextFactor? .cell factor before)
      (Production.nextFactor? .cell factor' before') g g' c d := by
  rcases h.like.inside_or_atEnd with hinside | hend
  · obtain ⟨k, text, p, q, ts, us, hc, hd, hlike⟩ := hinside.exists_cons
    refine current ?_
    rw [hc, hd, List.head?_cons, List.head?_cons]
    cases k with
    | shorthand kind => exact operand (Mirrors.surfaceRun kind hbefore h.toAbreast hg hc hd hlike)
    | number | zero | leftParen | complement => exact operand (hfactor g g' c d hg h)
    | _ => exact stop h
  · intro r c' hrun
    rw [run_nextFactor?_of_idle hend.idle.1] at hrun
    cases hrun
    exact ⟨(none, g'), d, run_nextFactor?_of_idle hend.idle.2 _ _, h, .inl ⟨rfl, rfl, .refl, .refl⟩⟩

/-- Intersections mirror each other if their factors do. -/
theorem MirrorsOperand.intersection :
    MirrorsOperand s (Production.intersection .cell factor)
      (Production.intersection .cell factor') := by
  intro g g' c d hg h
  refine (hfactor g g' c d hg h).bind fun o o' g₁ g₁' c₁ d₁ ho hg₁ h₁ ↦ ?_
  refine Mirrors.loopBuilding ?_ ho hg₁ h₁
  intro o o' g g' c d ho hg h
  refine (MirrorsNext.nextFactor? hfactor ho hg h).andThen ?_
  exact fun a a' g₁ g₁' c' d' ha hg₁ h₁ ↦ .join .intersection _ _ ho ha hg₁ h₁

/-- Unions mirror each other if their factors do. -/
theorem MirrorsOperand.union :
    MirrorsOperand s (Production.union .cell factor) (Production.union .cell factor') := by
  intro g g' c d hg h
  have hchain := MirrorsOperand.intersection hfactor
  refine (hchain g g' c d hg h).bind fun o o' g₁ g₁' c₁ d₁ ho hg₁ h₁ ↦ ?_
  refine Mirrors.loopBuilding ?_ ho hg₁ h₁
  intro o o' g g' c d ho hg h
  refine MirrorsNext.currentKind ?_
  rcases h.like.inside_or_atEnd with hinside | hend
  · obtain ⟨k, text, p, q, ts, us, hc, hd, hlike⟩ := hinside.exists_cons
    rw [hc, hd, List.head?_cons, List.head?_cons, Option.map_some, Option.map_some]
    split_ifs with hcolon
    · have hmark : Production.Mirrors s 1 (fun _ _ ↦ True) (Production.colon o.behind)
          (Production.colon o'.behind) c d := by
        refine .advance h.toAbreast hc hd fun c' d' hc' hd' h' ↦ ?_
        have htracks : s.Tracks c' d' := ⟨h', hc' ▸ hd' ▸ hlike⟩
        exact (Production.Mirrors.layout htracks).bind fun _ _ _ _ _ h'' ↦ .pure h'' trivial
      refine .step (.lift hmark fun _ _ c₁ d₁ _ h₁ ↦ ?_)
      refine Mirrors.bind ((hchain g g' c₁ d₁ hg h₁).weaken (Nat.zero_le 1)) ?_
      intro a a' g₁ g₁' c₂ d₂ ha hg₁ h₂
      refine (Mirrors.join .union _ _ ho ha hg₁ h₂).bind fun b b' g₂ g₂' c₃ d₃ hb hg₂ h₃ ↦ ?_
      exact .pure h₃ hg₂ ⟨b, b', rfl, rfl, hb⟩
    · exact .stop h
  · rw [hend.idle.1.kind_ne ⟨rfl, rfl, rfl⟩, hend.idle.2.kind_ne ⟨rfl, rfl, rfl⟩]
    exact .stop h

end

/-- Factors may be nested as deep at both places. -/
theorem mirrorsOperand_factor (s : Seam) (room : Nat) :
    MirrorsOperand s (Production.factor .cell room) (Production.factor .cell room) := by
  induction room with
  | zero => rintro g g' c d - - _ _ ⟨⟩
  | succ room ih =>
    intro g g' c d hg h
    refine Production.Mirrors.nested h fun c' d' h' ↦ ?_
    refine (Mirrors.current ?_ : Mirrors s 1 SamePlace _ _ g g' c' d')
    rcases h'.like.inside_or_atEnd with hinside | hend
    · obtain ⟨k, text, p, q, ts, us, hc, hd, hlike⟩ := hinside.exists_cons
      rw [hc, hd, List.head?_cons, List.head?_cons]
      cases k with
      | number | zero => exact .leaf h'.toAbreast hg hc hd hlike
      | complement => exact .complement ih h'.toAbreast hg hc hd hlike
      | leftParen => exact .group (MirrorsOperand.union ih) h'.toAbreast hg hc hd hlike
      | _ => exact .unexpected
    · cases hhead : c'.rest.head? with
      | none => exact .unexpected
      | some t =>
        obtain ⟨k, text, p⟩ := t
        have hidle := hend.idle.1 _ hhead
        cases k <;> first | exact .unexpected | (rcases hidle with hidle | hidle | hidle <;>
          cases hidle)

end Building

/-! ## Cells -/

/-- Two cells that are the same up to layout and parameters. -/
structure CellRecord.SameHeading (c d : CellRecord) : Prop where
  number : c.number.bare = d.number.bare
  material : c.material.bare = d.material.bare
  density : c.density.map Field.bare = d.density.map Field.bare
  geometry : c.geometry.bare = d.geometry.bare

namespace Production

variable {s : Seam} {c d : Cursor}

/-- A cell up to its parameters. -/
def heading : Production CellRecord := do
  let leading ← layout
  let number ← value .int "cell number"
  refuseLike
  let material ← value .int "material number"
  let density ← density? material
  let geometry ← geometry .cell
  return ⟨leading, number, material, density, geometry, .empty, none⟩

/-- A cell is its heading and its parameters. -/
theorem cell_eq_heading : cell .cell = do
    let heading ← heading
    let parameters ← parameters .cell
    finish
    return heading.setParameters parameters := by
  simp only [cell, heading, bind_assoc, pure_bind]
  rfl

namespace Mirrors

/-- A geometry in front of a seam is the same whatever layout stands there. -/
theorem geometry (h : s.Tracks c d) :
    Mirrors s 1 (fun g g' ↦ g.bare = g'.bare) (geometry .cell) (geometry .cell) c d := by
  refine get ?_
  rw [← h.depth_eq]
  have hunion :=
    Building.MirrorsOperand.union (Building.mirrorsOperand_factor s (Limits.parseDepth - c.depth))
  have hbuilt : Mirrors s 1 _ _ _ c d := hunion .empty .empty c d rfl h
  refine hbuilt.bind ?_
  rintro ⟨o, g⟩ ⟨o', g'⟩ c' d' ⟨ho, hg⟩ h'
  refine .pure h' ?_
  simp only [Geometry.bare, Geometry.setRoot, Geometry.setTrailing, Geometry.mk.injEq] at hg ⊢
  exact ⟨hg.1, ho, trivial⟩

/-- A density is there for both cells or for neither. -/
theorem density? (h : s.Tracks c d) {f f' : Field} (hf : f.bare = f'.bare) :
    Mirrors s 0 (fun o o' ↦ o.map Field.bare = o'.map Field.bare)
      (density? f) (density? f') c d := by
  have hnumber : f.toInt? = f'.toInt? := by rw [← f.toInt?_bare, hf, f'.toInt?_bare]
  unfold Production.density?
  rw [hnumber]
  split_ifs
  · exact .pure h rfl
  · refine map (((value h (by decide) _).weaken (Nat.zero_le 1)).mono fun g g' hg ↦
      congrArg some ?_)
    rw [Field.bare_asSignedFraction, hg, Field.bare_asSignedFraction]

/-- What describes a cell by another one is refused, and the end of the record is no material. -/
theorem material (h : s.Tracks c d) {f f' : Field → Production CellRecord}
    (hf : ∀ a a' c' d', a.bare = a'.bare → s.Tracks c' d' →
      Mirrors s 0 CellRecord.SameHeading (f a) (f' a') c' d') :
    Mirrors s 1 CellRecord.SameHeading
      (do refuseLike; f (← Production.value .int "material number"))
      (do refuseLike; f' (← Production.value .int "material number")) c d := by
  have hint : ValueKind.int ≠ .text := by decide
  rcases h.like.inside_or_atEnd with hinside | hend
  · have refused : Mirrors s 0 (fun _ _ ↦ True) refuseLike refuseLike c d := by
      obtain ⟨k, text, p, q, ts, us, hc, hd, -⟩ := hinside.exists_cons
      refine current ?_
      have hspells : Token.spells ⟨k, text, q⟩ "like" = Token.spells ⟨k, text, p⟩ "like" := rfl
      rw [hc, hd, List.head?_cons, List.head?_cons, Option.filter_some, Option.filter_some, hspells]
      split_ifs
      · exact .throw
      · exact .pure h trivial
    refine refused.bind_reads fun _ _ c' d' _ h' ↦ ?_
    exact (value h' hint "material number").bind hf
  · intro a c' hrun
    have hcurrent : (current?).run c = (.ok c.rest.head?, c) :=
      congrArg (fun t ↦ (Except.ok t, c)) c.current?_eq_head?
    unfold refuseLike at hrun
    rw [bind_assoc, run_bind_of_ok hcurrent] at hrun
    cases hlike : c.rest.head?.filter (·.spells "like") with
    | some t =>
      rw [hlike] at hrun
      cases hrun
    | none =>
      rw [hlike] at hrun
      obtain ⟨_, c₁, ⟨⟩, hrest⟩ := run_bind_ok hrun
      obtain ⟨g, c₂, hvalue, -⟩ := run_bind_ok hrest
      exact absurd hvalue (run_value_ne_ok hend.idle.1 hint _ g c₂)

/-- The heading of a cell is the same whatever stands behind the seam. -/
theorem heading (h : s.Tracks c d) :
    Mirrors s 1 CellRecord.SameHeading heading heading c d := by
  refine (layout h).bind_reads fun leading leading' c₁ d₁ _ h₁ ↦ ?_
  refine (value h₁ (by decide) _).bind fun number number' c₂ d₂ hnumber h₂ ↦ ?_
  refine weaken ?_ (Nat.zero_le 1)
  refine material h₂ fun material material' c₃ d₃ hmaterial h₃ ↦ ?_
  refine (density? h₃ hmaterial).bind fun density density' c₄ d₄ hdensity h₄ ↦ ?_
  refine weaken ?_ (Nat.zero_le 1)
  refine (geometry h₄).bind fun geometry geometry' c₅ d₅ hgeometry h₅ ↦ ?_
  exact .pure h₅ ⟨hnumber, hmaterial, hdensity, hgeometry⟩

end Mirrors

end Production

end TransportDeck
