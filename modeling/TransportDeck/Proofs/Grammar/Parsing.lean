import TransportDeck.Proofs.Grammar.Geometry
import TransportDeck.Proofs.Grammar.Progress
import TransportDeck.Proofs.Region.Reading

/-!
# Phrases are read

The grammar of geometries as a relation between tokens and the region that they describe, and the
proof that what it derives is read as that region.  Operators of one level associate to the left, as
the loops of the reader do; derivations that join phrases in another way have the same meaning.
-/

namespace TransportDeck

/-! ## The grammar -/

/-- The tokens are a phrase of a geometry that describes the region and ends with the value.  A run
goes on from the value in front of it. -/
inductive Phrase : PhraseLevel → RegionTree → Option Value → List Token → Prop where
  | surface {t : Token} {n : Int} (kind : t.kind.isNumber = true)
      (value : Number.readInt? t.text = some n) :
      Phrase .factor (.unit (.surface n)) (some (.int n)) [t]
  | cell {m t : Token} {ls : List Token} {n : Int} (mark : m.kind = .complement)
      (layout : AllLayout ls) (kind : t.kind.isNumber = true)
        (value : Number.readInt? t.text = some n) :
      Phrase .factor (.complement (.unit (.cell n))) (some (.int n)) (m :: (ls ++ [t]))
  | complement {m : Token} {ls ts : List Token} {x : RegionTree} {e : Option Value}
      (mark : m.kind = .complement) (layout : AllLayout ls) (operand : Phrase .group x e ts) :
      Phrase .factor (.complement x) e (m :: (ls ++ ts))
  | group {m m' : Token} {ls ts ls' : List Token} {x : RegionTree} {e : Option Value}
      (opening : m.kind = .leftParen) (layout : AllLayout ls) (inner : Phrase .union x e ts)
      (layout' : AllLayout ls') (closing : m'.kind = .rightParen) :
      Phrase .group x e (m :: (ls ++ (ts ++ (ls' ++ [m']))))
  | run {t : Token} {ts ls : List Token} {x y : RegionTree} {e : Option Value} {s : Shorthand}
      (left : Phrase .intersection x e ts) (layout : AllLayout ls)
      (token : t.kind = .shorthand s.kind) (goesOn : s.GoesOn e t.text)
      (numbers : RegionTree.ofNumbers? s.numbers = some y) :
      Phrase .intersection (.join .and x y) s.edge? (ts ++ (ls ++ [t]))
  | intersection {ts ls us : List Token} {x y : RegionTree} {e e' : Option Value}
      (left : Phrase .intersection x e ts) (layout : AllLayout ls)
        (right : Phrase .factor y e' us) :
      Phrase .intersection (.join .and x y) e' (ts ++ (ls ++ us))
  | union {m : Token} {ts ls ls' us : List Token} {x y : RegionTree} {e e' : Option Value}
      (left : Phrase .union x e ts) (layout : AllLayout ls) (mark : m.kind = .colon)
      (layout' : AllLayout ls') (right : Phrase .intersection y e' us) :
      Phrase .union (.join .or x y) e' (ts ++ (ls ++ m :: (ls' ++ us)))
  | ofGroup {x : RegionTree} {e : Option Value} {ts : List Token} (h : Phrase .group x e ts) :
      Phrase .factor x e ts
  | ofFactor {x : RegionTree} {e : Option Value} {ts : List Token} (h : Phrase .factor x e ts) :
      Phrase .intersection x e ts
  | ofIntersection {x : RegionTree} {e : Option Value} {ts : List Token}
      (h : Phrase .intersection x e ts) : Phrase .union x e ts

/-- Kinds of tokens that a factor starts with. -/
def TokenKind.startsFactor : TokenKind → Bool
  | .number | .zero | .leftParen | .complement => true
  | _ => false

/-- A number is a factor of a geometry. -/
theorem TokenKind.startsFactor_of_isNumber {k : TokenKind} (h : k.isNumber = true) :
    k.startsFactor = true := by
  cases k <;> first | rfl | cases h

/-- What starts a factor is no layout. -/
theorem TokenKind.isLayout_of_startsFactor {k : TokenKind} (h : k.startsFactor = true) :
    k.isLayout = false := by
  cases k <;> first | rfl | cases h

/-- A phrase starts with a token that starts a factor. -/
theorem Phrase.exists_head {level : PhraseLevel} {x : RegionTree} {e : Option Value}
    {ts : List Token} (h : Phrase level x e ts) :
    ∃ t us, ts = t :: us ∧ t.kind.startsFactor = true := by
  induction h with
  | surface kind => exact ⟨_, _, rfl, TokenKind.startsFactor_of_isNumber kind⟩
  | cell mark | complement mark => exact ⟨_, _, rfl, by rw [mark]; rfl⟩
  | group opening => exact ⟨_, _, rfl, by rw [opening]; rfl⟩
  | run _ _ _ _ _ ih | intersection _ _ _ ih | union _ _ _ _ _ ih =>
    obtain ⟨t, us, rfl, ht⟩ := ih
    exact ⟨t, _, rfl, ht⟩
  | ofGroup _ ih | ofFactor _ ih | ofIntersection _ ih => exact ih

/-! ## Joining -/

namespace RegionTree.Agrees

variable {x x' y y' z : RegionTree}

theorem trans (h : x.Agrees y) (h' : y.Agrees z) : x.Agrees z :=
  ⟨h.sides_eq.trans h'.sides_eq, fun i ↦ (h.holds_eq i).trans (h'.holds_eq i)⟩

/-- Trees that agree are joined to trees that agree. -/
theorem join (op : RegionOp) (h : x.Agrees x') (h' : y.Agrees y') :
    (RegionTree.join op x y).Agrees (.join op x' y') where
  sides_eq := by simp only [sides, h.sides_eq, h'.sides_eq]
  holds_eq inside := by simp only [holds, h.holds_eq, h'.holds_eq]

theorem complement (h : x.Agrees x') : (RegionTree.complement x).Agrees (.complement x') where
  sides_eq := h.sides_eq
  holds_eq inside := by simp only [holds, h.holds_eq]

/-- Chains agree however they are bracketed. -/
theorem assoc (op : RegionOp) (x y z : RegionTree) :
    (RegionTree.join op (.join op x y) z).Agrees (.join op x (.join op y z)) where
  sides_eq := by simp only [sides, List.append_assoc]
  holds_eq inside := by
    simp only [holds]
    split_ifs
    · rw [Bool.or_assoc]
    · rw [Bool.and_assoc]

end RegionTree.Agrees

namespace Phrase

variable {x y : RegionTree} {e e' : Option Value} {ts ls ls' us : List Token} {m : Token}

/-- A chain on the right joins the one on the left, factor by factor. -/
theorem intersect (hx : Phrase .intersection x e ts) (hls : AllLayout ls)
    (hy : Phrase .intersection y e' us) :
    ∃ z, z.Agrees (.join .and x y) ∧ Phrase .intersection z e' (ts ++ (ls ++ us)) := by
  generalize hlevel : PhraseLevel.intersection = level at hy
  induction hy with
  | surface | cell | complement | group | union | ofGroup | ofIntersection => cases hlevel
  | ofFactor hfactor => exact ⟨_, .refl _, .intersection hx hls hfactor⟩
  | @run t us vs y₁ y₂ _ s _ hlayout htoken hgoesOn hnumbers ih =>
    obtain ⟨z, hz, hphrase⟩ := ih rfl
    refine ⟨.join .and z y₂, (hz.join .and (.refl y₂)).trans (.assoc .and x y₁ y₂), ?_⟩
    simpa only [List.append_assoc] using Phrase.run hphrase hlayout htoken hgoesOn hnumbers
  | @intersection us vs ws y₁ y₂ _ _ _ hlayout hfactor ih =>
    obtain ⟨z, hz, hphrase⟩ := ih rfl
    refine ⟨.join .and z y₂, (hz.join .and (.refl y₂)).trans (.assoc .and x y₁ y₂), ?_⟩
    simpa only [List.append_assoc] using Phrase.intersection hphrase hlayout hfactor

/-- Two unions with a colon between them are a union, bracketed to the left. -/
theorem unite (hx : Phrase .union x e ts) (hls : AllLayout ls) (hm : m.kind = .colon)
    (hls' : AllLayout ls') (hy : Phrase .union y e' us) :
    ∃ z, z.Agrees (.join .or x y) ∧ Phrase .union z e' (ts ++ (ls ++ m :: (ls' ++ us))) := by
  generalize hlevel : PhraseLevel.union = level at hy
  induction hy with
  | surface | cell | complement | group | run | intersection | ofGroup | ofFactor => cases hlevel
  | ofIntersection hchain => exact ⟨_, .refl _, .union hx hls hm hls' hchain⟩
  | @union m' us vs vs' ws y₁ y₂ _ _ _ hlayout hmark hlayout' hchain ih =>
    obtain ⟨z, hz, hphrase⟩ := ih rfl
    refine ⟨.join .or z y₂, (hz.join .or (.refl y₂)).trans (.assoc .or x y₁ y₂), ?_⟩
    simpa only [List.append_assoc, List.cons_append] using
      Phrase.union hphrase hlayout hmark hlayout' hchain

end Phrase

/-! ## Phrases that are built -/

/-- The operand was built onto a geometry, describes the region and ends with the value. -/
def Operand.Shows (o : Operand) (g g' : Geometry) (x : RegionTree) (e : Option Value) : Prop :=
  ∃ tree, g.Grows g' o.id tree ∧ tree.region? = some x ∧ tree.edge? = e

namespace Building

variable {α β : Type} {g : Geometry} {c : Cursor}

def Yields (b : Building α) (g : Geometry) (c : Cursor) (Q : α → Geometry → List Token → Prop) :
    Prop :=
  Production.Yields (b g) c fun r us ↦ Q r.1 r.2 us

variable {b : Building α} {f : α → Building β} {Q : α → Geometry → List Token → Prop}
  {R : β → Geometry → List Token → Prop}

namespace Yields

theorem mono {Q' : α → Geometry → List Token → Prop} (h : Yields b g c Q)
    (himp : ∀ a g' us, Q a g' us → Q' a g' us) : Yields b g c Q' :=
  Production.Yields.mono h fun r us ↦ himp r.1 r.2 us

theorem pure {a : α} (h : Q a g c.rest) : Yields (pure a) g c Q := Production.Yields.pure h

/-- A builder gives what its second half gives behind its first. -/
theorem bind (hb : Yields b g c Q) (hf : ∀ a g' c', Q a g' c'.rest → Yields (f a) g' c' R) :
    Yields (b >>= f) g c R :=
  Production.Yields.bind hb fun r c' hQ ↦ hf r.1 r.2 c' hQ

/-- A production leaves the geometry alone. -/
theorem lift {p : Production α} {P : α → List Token → Prop} (hp : Production.Yields p c P)
    (hf : ∀ a c', P a c'.rest → Yields (f a) g c' R) : Yields (liftM p >>= f) g c R := by
  refine bind (Q := fun a g' us ↦ g' = g ∧ P a us) (Production.Yields.map (hp.mono ?_)) ?_
  · exact fun a us hP ↦ ⟨rfl, hP⟩
  · rintro a _ c' ⟨rfl, hP⟩
    exact hf a c' hP

/-- A new entry stands behind the others. -/
theorem place {e : GeometryEntry} {f : Nat → Building β} (hf : Yields (f g.size) (g.push e) c R) :
    Yields (Production.place e >>= f) g c R := hf

/-- A new branch stands on the operands in front of it. -/
theorem join {op : GeometryOp} {left right : Operand} {mark : Layout} {f : Operand → Building β}
    (hf : Yields (f ⟨g.size, right.behind⟩) (g.push (.branch (.binary op left.id mark right.id)))
      c R) :
    Yields (Production.join op left mark right >>= f) g c R := hf

theorem get {f : Geometry → Building β} (h : Yields (f g) g c R) : Yields (get >>= f) g c R := h

theorem current {f : Option Token → Building β} (h : Yields (f c.rest.head?) g c R) :
    Yields (liftM Production.current? >>= f) g c R := by
  rw [← c.current?_eq_head?] at h
  exact h

theorem currentKind {f : Option TokenKind → Building β}
    (h : Yields (f (c.rest.head?.map (·.kind))) g c R) :
    Yields (liftM Production.currentKind? >>= f) g c R := by
  rw [← c.current?_eq_head?] at h
  exact h

end Yields

/-! ## Loops -/

/-- A round on an operand and the geometry around it. -/
def roundOn (round : Operand → Building (Option Operand)) :
    Operand × Geometry → Production (Option (Operand × Geometry)) := fun (o, tree) ↦
  return match ← round o tree with
    | (some o, tree) => some (o, tree)
    | (none, _) => none

def Loops (round : Operand → Building (Option Operand)) (o : Operand) (g : Geometry) (c : Cursor)
    (Q : Operand → Geometry → List Token → Prop) : Prop :=
  Production.Loops (roundOn round) (o, g) c fun s us ↦ Q s.1 s.2 us

variable {round : Operand → Building (Option Operand)} {o : Operand}
  {S : Operand → Geometry → List Token → Prop}

/-- A loop goes on with a round that reads on. -/
theorem Loops.step {us : List Token} (hlt : us.length < c.rest.length)
    (h : Yields (round o) g c fun r g' vs ↦ vs = us ∧ ∃ o', r = some o' ∧
      ∀ c' : Cursor, c'.rest = us → Loops round o' g' c' S) : Loops round o g c S := by
  refine Production.Loops.step (Production.Yields.bind h ?_)
  rintro ⟨_, g'⟩ c' ⟨hc', o', rfl, hloops⟩
  exact .pure ⟨hc' ▸ hlt, (o', g'), rfl, fun c'' hc'' ↦ hloops c'' (hc''.trans hc')⟩

/-- A loop stops with a round that gives nothing. -/
theorem Loops.stop (h : Yields (round o) g c fun r _ us ↦ r = none ∧ S o g us) :
    Loops round o g c S := by
  refine Production.Loops.stop (Production.Yields.bind h ?_)
  rintro ⟨_, g'⟩ c' ⟨rfl, hS⟩
  exact .pure ⟨rfl, hS⟩

/-- A loop gives what its rounds, taken one after the other, come to. -/
theorem Yields.loopBuilding (h : Loops round o g c S) :
    Yields (Production.loopBuilding round o) g c S :=
  (show Production.Loops (roundOn round) _ _ _ from h).yields

/-! ## Factors -/

variable {gr : Grammar} {room : Nat} {t : Token} {ls us vs : List Token} {n : Int}

namespace Yields

/-- A parenthesis is opened, and the layout behind it is skipped. -/
theorem opening {mark : String} (hc : c.rest = t :: vs) (hvs : Skips vs ls us) :
    Production.Yields (Production.opening mark) c fun _ ws ↦ ws = us := by
  refine (Production.Yields.advance hc).bind ?_
  rintro - c' rfl
  exact .map (.layout hvs)

/-- A number becomes a leaf, and the layout behind it is kept with the operand. -/
theorem leaf (hc : c.rest = t :: vs) (hvalue : Number.readInt? t.text = some n)
    (hvs : Skips vs ls us) : Yields (Production.leaf t) g c fun o g' ws ↦
      ws = us ∧ ∃ f, g.Grows g' o.id (.leaf f) ∧ f.signed = some (.int n) := by
  let f : Field :=
    ⟨some t.text, some (.int n), some (.int n), .int, none, ⟨false, false⟩, false, false⟩
  have hparse : Field.parse? t.text .int none = some f := by
    simp [Field.parse?, Field.readValue?, hvalue, f]
  have hnumber : f.asSignedIdentifier.signed = some (.int n) := by
    simp only [Field.asSignedIdentifier, Field.splitSign, Field.signed,
      SignFlag.apart, Value.isNegative, Value.magnitude, f]
    by_cases hn : n < 0
    · simp [hn, Value.negate, abs_of_neg]
    · simp [hn, abs_of_nonneg (not_lt.mp hn)]
  unfold Production.leaf
  rw [hparse]
  refine lift (.advance hc) ?_
  rintro - c' rfl
  refine place (lift (.layout hvs) ?_)
  rintro - c'' rfl
  exact .pure ⟨rfl, _, .leaf g _, hnumber⟩

/-- A factor is told by its first token, and read one level deeper. -/
theorem factor {S : Operand → Geometry → List Token → Prop} (hc : c.rest = t :: vs)
    (h : ∀ room c', c'.rest = t :: vs → Yields (match t.kind with
      | .number | .zero => Production.leaf t
      | .complement => Production.complement (Production.factor gr room)
      | .leftParen => Production.group (Production.union gr (Production.factor gr room))
      | _ => Production.unexpected Production.expectedFactor) g c' S) :
    Yields (Production.factor gr room) g c S := by
  cases room with
  | zero => exact Production.Yields.tooDeep
  | succ room =>
    refine Production.Yields.nested fun c' hc' ↦ ?_
    rw [hc] at hc'
    refine (current ?_ : Yields _ g c' S)
    rw [hc']
    exact h room c' hc'

/-- A number alone is a factor. -/
theorem number (hkind : t.kind.isNumber = true) (hvalue : Number.readInt? t.text = some n)
    (hc : c.rest = t :: vs) (hvs : Skips vs ls us) :
    Yields (Production.factor gr room) g c fun o g' ws ↦
      ws = us ∧ ∃ f, g.Grows g' o.id (.leaf f) ∧ f.signed = some (.int n) := by
  refine factor hc fun room c' hc' ↦ ?_
  have hleaf := leaf (g := g) hc' hvalue hvs
  cases hk : t.kind <;> rw [hk] at hkind <;> first | exact hleaf | cases hkind

end Yields

/-! ## Runs -/

/-- A run is built from its token and the value in front of it, and stands for its numbers. -/
theorem Yields.surfaceRun {s : Shorthand} {before : Nat} {y : RegionTree}
    (hgr : gr.allows .shorthands = true) (hc : c.rest = t :: vs)
    (hgoesOn : s.GoesOn (Production.edgeValue g g.size before) t.text) (hvs : Skips vs ls us)
    (hnumbers : RegionTree.ofNumbers? s.numbers = some y) :
    Yields (Production.surfaceRun gr s.kind t before) g c fun o g' ws ↦
      ws = us ∧ o.Shows g g' y s.edge? := by
  refine .lift (.advance hc) ?_
  rintro - c₁ rfl
  rw [if_neg (by rw [hgr]; decide)]
  refine .get ?_
  have built {e : Except ShorthandError Shorthand} (he : e = .ok { s with id := g.size }) :
      Yields (liftM (Production.orMalformed t.span e) >>= fun s ↦ (do
          let id ← Production.place (.run s)
          return (⟨id, ← Production.layout⟩ : Operand) : Building Operand)) g c₁
        fun o g' ws ↦ ws = us ∧ o.Shows g g' y s.edge? := by
    rw [he]
    refine .lift (P := fun s' ws ↦ s' = { s with id := g.size } ∧ ws = c₁.rest)
      (.pure ⟨rfl, rfl⟩) ?_
    rintro _ c₂ ⟨rfl, hc₂⟩
    refine .place (.lift (.layout (hc₂ ▸ hvs)) ?_)
    rintro behind c₃ hc₃
    exact .pure ⟨hc₃, _, .run g _, hnumbers, rfl⟩
  dsimp only
  obtain ⟨id, hs | hs⟩ := hgoesOn
  · rw [Shorthand.kind_of_copies hs]
    exact built (Shorthand.copies_renumber hs _)
  · rw [Shorthand.kind_of_multiply hs]
    exact built (Shorthand.multiply_renumber hs _)

/-! ## Chains -/

/-- A round of an intersection. -/
def factorRound (gr : Grammar) (factor : Building Operand) (left : Operand) :
    Building (Option Operand) := do
  match ← Production.nextFactor? gr factor left.id with
  | some right => return some (← Production.join .intersection left (left.behind.getD .empty) right)
  | none => return none

/-- A round of a union. -/
def chainRound (gr : Grammar) (factor : Building Operand) (left : Operand) :
    Building (Option Operand) := do
  if (← Production.currentKind?) == some .colon then
    let mark ← Production.colon left.behind
    return some (← Production.join .union left mark (← Production.intersection gr factor))
  else return none

/-- No intersection goes on with these tokens. -/
def EndsChain (us : List Token) : Prop :=
  ∀ t ∈ us.head?, t.kind.startsFactor = false ∧ t.kind.isShorthand = false

/-- No union goes on with these tokens. -/
structure EndsUnion (us : List Token) : Prop where
  endsChain : EndsChain us
  no_colon : ∀ t ∈ us.head?, t.kind ≠ .colon

/-- A chain of factors stops where no factor starts. -/
theorem Loops.stop_chain {factor : Building Operand} (hc : EndsChain c.rest) (hS : S o g c.rest) :
    Loops (factorRound gr factor) o g c S := by
  have hnone : Yields (Production.nextFactor? gr factor o.id) g c fun r g' us ↦
      r = none ∧ S o g us := by
    refine .current ?_
    cases hhead : c.rest.head? with
    | none => exact .pure ⟨rfl, hS⟩
    | some t =>
      obtain ⟨hfactor, hrun⟩ := hc t hhead
      dsimp only
      cases hkind : t.kind <;> rw [hkind] at hfactor hrun <;>
        first | exact .pure ⟨rfl, hS⟩ | (cases hfactor; done) | cases hrun
  refine .stop (hnone.bind ?_)
  rintro _ g' c' ⟨rfl, hS'⟩
  exact .pure ⟨rfl, hS'⟩

/-- A union of chains stops where no colon stands. -/
theorem Loops.stop_union {factor : Building Operand} (hc : EndsUnion c.rest) (hS : S o g c.rest) :
    Loops (chainRound gr factor) o g c S := by
  refine .stop (.currentKind ?_)
  have hkind : (c.rest.head?.map (·.kind) == some TokenKind.colon) = false := by
    cases hhead : c.rest.head? with
    | none => rfl
    | some t => simpa using hc.no_colon t hhead
  rw [hkind]
  exact .pure ⟨rfl, hS⟩

/-! ## Phrases -/

variable {x y : RegionTree} {e e' : Option Value} {ts : List Token} {level : PhraseLevel}

/-- Layout in front of a phrase is skipped up to the phrase. -/
theorem skips_of_phrase (h : Phrase level x e ts) (hls : AllLayout ls) (vs : List Token) :
    Skips (ls ++ (ts ++ vs)) ls (ts ++ vs) := by
  obtain ⟨t, us, rfl, ht⟩ := h.exists_head
  refine ⟨rfl, hls, ?_⟩
  rintro _ ⟨⟩
  exact TokenKind.isLayout_of_startsFactor ht

/-- What reading a phrase of a level gives, if layout and a token that ends the phrase stand behind
it. A chain is given to the loop that may go on with it. -/
def Parses (gr : Grammar) : PhraseLevel → RegionTree → Option Value → List Token → Prop
  | .group, x, e, ts => ∀ room g c vs ls us, c.rest = ts ++ vs → Skips vs ls us →
      Yields (Production.factor gr room) g c fun o g' ws ↦ ws = us ∧ ∃ tree, g.Grows g' o.id tree ∧
        tree.leaf? = none ∧ tree.region? = some x ∧ tree.edge? = e
  | .factor, x, e, ts => ∀ room g c vs ls us, c.rest = ts ++ vs → Skips vs ls us →
      Yields (Production.factor gr room) g c fun o g' ws ↦ ws = us ∧ o.Shows g g' x e
  | .intersection, x, e, ts => ∀ room g c vs ls us S, c.rest = ts ++ vs → Skips vs ls us →
      (∀ o g' c', c'.rest = us → o.Shows g g' x e →
        Loops (factorRound gr (Production.factor gr room)) o g' c' S) →
      Yields (Production.intersection gr (Production.factor gr room)) g c S
  | .union, x, e, ts => ∀ room g c vs ls us S, c.rest = ts ++ vs → Skips vs ls us → EndsChain us →
      (∀ o g' c', c'.rest = us → o.Shows g g' x e →
        Loops (chainRound gr (Production.factor gr room)) o g' c' S) →
      Yields (Production.union gr (Production.factor gr room)) g c S

namespace Parses

/-- The mark of a complement and a number are the outside of a cell. -/
theorem cell {m : Token} (hmark : m.kind = .complement) (hls : AllLayout ls)
    (hkind : t.kind.isNumber = true) (hvalue : Number.readInt? t.text = some n) :
    Parses gr .factor (.complement (.unit (.cell n))) (some (.int n)) (m :: (ls ++ [t])) := by
  intro room g c vs ls' us hc hvs
  rw [List.cons_append, List.append_assoc, List.singleton_append] at hc
  refine Yields.factor hc fun room c' hc' ↦ ?_
  rw [hmark]
  have hskips : Skips (ls ++ t :: vs) ls (t :: vs) := by
    refine ⟨rfl, hls, ?_⟩
    rintro _ ⟨⟩
    exact TokenKind.isLayout_of_startsFactor (TokenKind.startsFactor_of_isNumber hkind)
  refine .lift (Yields.opening hc' hskips) ?_
  rintro mark c₁ hc₁
  refine .current ?_
  have hstarts : (c₁.rest.head?.any Production.startsOperand) = true := by
    rw [hc₁]
    simp [Production.startsOperand, hkind]
  rw [if_pos hstarts]
  refine (Yields.number hkind hvalue hc₁ hvs).bind ?_
  rintro o g₁ c₂ ⟨hc₂, f, hgrows, hf⟩
  refine .place (.pure ⟨hc₂, _, hgrows.complement mark, ?_, hf⟩)
  simp only [GeometryTree.region?, GeometryTree.leaf?, Field.toInt?, hf, Option.bind_some,
    Value.toInt?, Option.map_some]

/-- The mark of a complement and a group are the complement of what is in the group. -/
theorem complement {m : Token} (hmark : m.kind = .complement) (hls : AllLayout ls)
    (hgroup : Phrase .group x e ts) (ih : Parses gr .group x e ts) :
    Parses gr .factor (.complement x) e (m :: (ls ++ ts)) := by
  intro room g c vs ls' us hc hvs
  rw [List.cons_append, List.append_assoc] at hc
  refine Yields.factor hc fun room c' hc' ↦ ?_
  rw [hmark]
  refine .lift (Yields.opening hc' (skips_of_phrase hgroup hls vs)) ?_
  rintro mark c₁ hc₁
  refine .current ?_
  have hstarts : (c₁.rest.head?.any Production.startsOperand) = true := by
    rw [hc₁]
    cases hgroup with
    | group hopening => simp [Production.startsOperand, hopening]
  rw [if_pos hstarts]
  refine (ih room g c₁ vs ls' us hc₁ hvs).bind ?_
  rintro o g₁ c₂ ⟨hc₂, tree, hgrows, hleaf, htree, hedge⟩
  refine .place (.pure ⟨hc₂, _, hgrows.complement mark, ?_, hedge⟩)
  rw [GeometryTree.region?, hleaf, htree]
  rfl

/-- Parentheses are read as what is inside them. -/
theorem group {m m' : Token} {ls' : List Token} (hopening : m.kind = .leftParen)
    (hls : AllLayout ls) (hunion : Phrase .union x e ts) (ih : Parses gr .union x e ts)
    (hls' : AllLayout ls') (hclosing : m'.kind = .rightParen) :
    Parses gr .group x e (m :: (ls ++ (ts ++ (ls' ++ [m'])))) := by
  intro room g c vs ls'' us hc hvs
  have hsplit : m :: (ls ++ (ts ++ (ls' ++ [m']))) ++ vs =
      m :: (ls ++ (ts ++ (ls' ++ m' :: vs))) := by
    simp
  rw [hsplit] at hc
  refine Yields.factor hc fun room c' hc' ↦ ?_
  rw [hopening]
  refine .lift (Yields.opening hc' (skips_of_phrase hunion hls _)) ?_
  rintro mark c₁ hc₁
  have hskips : Skips (ls' ++ m' :: vs) ls' (m' :: vs) := by
    refine ⟨rfl, hls', ?_⟩
    rintro _ ⟨⟩
    rw [Token.isLayout, hclosing]
    rfl
  have hends : EndsUnion (m' :: vs) := by
    constructor <;> rintro _ ⟨⟩ <;> rw [hclosing]
    · exact ⟨rfl, rfl⟩
    · decide
  have hinner := ih room g c₁ _ _ _ (fun o g' ws ↦ ws = m' :: vs ∧ o.Shows g g' x e) hc₁ hskips
    hends.endsChain fun o g' c' hc' hshows ↦ .stop_union (by rwa [hc']) ⟨hc', hshows⟩
  refine hinner.bind ?_
  rintro o g₁ c₂ ⟨hc₂, tree, hgrows, htree, hedge⟩
  refine .currentKind ?_
  have hright : (c₂.rest.head?.map (·.kind) == some TokenKind.rightParen) = true := by
    rw [hc₂, List.head?_cons, Option.map_some, hclosing]
    rfl
  rw [if_pos hright]
  refine .lift (.advance hc₂) ?_
  rintro - c₃ rfl
  refine .place (.lift (.layout hvs) ?_)
  rintro behind c₄ hc₄
  exact .pure ⟨hc₄, _, hgrows.group mark _, rfl, htree, hedge⟩

/-- What comes behind a chain lengthens it. -/
theorem join_spec {left right : Operand} {g₀ g₁ g₂ : Geometry} (hleft : left.Shows g₀ g₁ x e)
    (hright : right.Shows g₁ g₂ y e') (mark : Layout) :
    Operand.Shows ⟨g₂.size, right.behind⟩ g₀
      (g₂.push (.branch (.binary .intersection left.id mark right.id))) (.join .and x y) e' := by
  obtain ⟨l, hgrowsl, hl, -⟩ := hleft
  obtain ⟨r, hgrowsr, hr, hedge⟩ := hright
  refine ⟨_, hgrowsl.binary rfl hgrowsr _, ?_, hedge⟩
  rw [GeometryTree.region?, hl, hr]
  rfl

/-- A run behind a chain goes on from its last value. -/
theorem run {s : Shorthand} (hgr : gr.allows .shorthands = true) (hls : AllLayout ls)
    (htoken : t.kind = .shorthand s.kind) (hgoesOn : s.GoesOn e t.text)
    (hnumbers : RegionTree.ofNumbers? s.numbers = some y) (ihl : Parses gr .intersection x e ts) :
    Parses gr .intersection (.join .and x y) s.edge? (ts ++ (ls ++ [t])) := by
  intro room g c vs ls' ws S hc hvs hS
  have hsplit : ts ++ (ls ++ [t]) ++ vs = ts ++ (ls ++ t :: vs) := by simp
  have hskips : Skips (ls ++ t :: vs) ls (t :: vs) := by
    refine ⟨rfl, hls, ?_⟩
    rintro _ ⟨⟩
    rw [Token.isLayout, htoken]
    rfl
  rw [hsplit] at hc
  refine ihl room g c _ _ _ S hc hskips fun left g₁ c₁ hc₁ hleft ↦ ?_
  have hnext : Yields (Production.nextFactor? gr (Production.factor gr room) left.id) g₁ c₁
      fun r g' vs' ↦ vs' = ws ∧ ∃ o, r = some o ∧ o.Shows g₁ g' y s.edge? := by
    refine .current ?_
    rw [hc₁, List.head?_cons]
    dsimp only
    rw [htoken]
    obtain ⟨tree, hgrows, -, rfl⟩ := hleft
    rw [← hgrows.edgeValue_eq] at hgoesOn
    refine (Yields.surfaceRun hgr hc₁ hgoesOn hvs hnumbers).bind ?_
    rintro o g' c' ⟨hc', ho⟩
    exact .pure ⟨hc', o, rfl, ho⟩
  have hlt : ws.length < c₁.rest.length := by
    rw [hc₁, hvs.eq, List.length_cons, List.length_append]
    omega
  refine .step hlt (hnext.bind ?_)
  rintro _ g₂ c₂ ⟨hc₂, right, rfl, hright⟩
  exact .join (.pure ⟨hc₂, _, rfl, fun c₃ hc₃ ↦ hS _ _ c₃ hc₃ (join_spec hleft hright _)⟩)

/-- Factors in a row are an intersection, bracketed to the left. -/
theorem intersection (hfactor : Phrase .factor y e' us) (hls : AllLayout ls)
    (ihl : Parses gr .intersection x e ts) (ihr : Parses gr .factor y e' us) :
    Parses gr .intersection (.join .and x y) e' (ts ++ (ls ++ us)) := by
  intro room g c vs ls' ws S hc hvs hS
  have hsplit : ts ++ (ls ++ us) ++ vs = ts ++ (ls ++ (us ++ vs)) := by simp
  rw [hsplit] at hc
  refine ihl room g c _ _ _ S hc (skips_of_phrase hfactor hls vs) fun left g₁ c₁ hc₁ hleft ↦ ?_
  obtain ⟨t, us', rfl, ht⟩ := hfactor.exists_head
  have hnext : Yields (Production.nextFactor? gr (Production.factor gr room) left.id) g₁ c₁
      fun r g' vs' ↦ vs' = ws ∧ ∃ o, r = some o ∧ o.Shows g₁ g' y e' := by
    have hfound : Yields (do return some (← Production.factor gr room)) g₁ c₁
        fun r g' vs' ↦ vs' = ws ∧ ∃ o, r = some o ∧ o.Shows g₁ g' y e' :=
      (ihr room g₁ c₁ vs ls' ws hc₁ hvs).bind fun o g' c' ⟨hc', ho⟩ ↦ .pure ⟨hc', o, rfl, ho⟩
    refine .current ?_
    rw [hc₁, List.cons_append, List.head?_cons]
    dsimp only
    cases hkind : t.kind <;> rw [hkind] at ht <;> first | exact hfound | cases ht
  have hlt : ws.length < c₁.rest.length := by
    rw [hc₁, hvs.eq, List.length_append, List.length_append, List.length_cons]
    omega
  refine .step hlt (hnext.bind ?_)
  rintro _ g₂ c₂ ⟨hc₂, right, rfl, hright⟩
  exact .join (.pure ⟨hc₂, _, rfl, fun c₃ hc₃ ↦ hS _ _ c₃ hc₃ (join_spec hleft hright _)⟩)

/-- Chains with colons between them are a union, bracketed to the left. -/
theorem union {m : Token} {ls' : List Token} (hls : AllLayout ls) (hmark : m.kind = .colon)
    (hls' : AllLayout ls') (hchain : Phrase .intersection y e' us) (ihl : Parses gr .union x e ts)
    (ihr : Parses gr .intersection y e' us) :
    Parses gr .union (.join .or x y) e' (ts ++ (ls ++ m :: (ls' ++ us))) := by
  intro room g c vs ls'' ws S hc hvs hends hS
  have hsplit : ts ++ (ls ++ m :: (ls' ++ us)) ++ vs = ts ++ (ls ++ m :: (ls' ++ (us ++ vs))) := by
    simp
  rw [hsplit] at hc
  have hskips : Skips (ls ++ m :: (ls' ++ (us ++ vs))) ls (m :: (ls' ++ (us ++ vs))) := by
    refine ⟨rfl, hls, ?_⟩
    rintro _ ⟨⟩
    rw [Token.isLayout, hmark]
    rfl
  have hcolon : EndsChain (m :: (ls' ++ (us ++ vs))) := by
    rintro _ ⟨⟩
    rw [hmark]
    exact ⟨rfl, rfl⟩
  refine ihl room g c _ _ _ S hc hskips hcolon fun left g₁ c₁ hc₁ hleft ↦ ?_
  have hlt : ws.length < c₁.rest.length := by
    rw [hc₁, hvs.eq]
    simp only [List.length_append, List.length_cons]
    omega
  refine .step hlt (.currentKind ?_)
  have hkind : (c₁.rest.head?.map (·.kind) == some TokenKind.colon) = true := by
    rw [hc₁, List.head?_cons, Option.map_some, hmark]
    rfl
  rw [if_pos hkind]
  have hopen : Production.Yields (Production.colon left.behind) c₁ fun _ vs' ↦ vs' = us ++ vs := by
    refine (Production.Yields.advance hc₁).bind ?_
    rintro - c₂ hc₂
    exact .map (.layout (hc₂ ▸ skips_of_phrase hchain hls' vs))
  refine .lift hopen fun mark c₂ hc₂ ↦ ?_
  have hoperand := ihr room g₁ c₂ vs ls'' ws (fun o g' vs' ↦ vs' = ws ∧ o.Shows g₁ g' y e') hc₂ hvs
    fun o g' c' hc' ho ↦ .stop_chain (by rwa [hc']) ⟨hc', ho⟩
  refine hoperand.bind ?_
  rintro right g₂ c₃ ⟨hc₃, hright⟩
  refine .join (.pure ⟨hc₃, _, rfl, fun c₄ hc₄ ↦ hS _ _ c₄ hc₄ ?_⟩)
  obtain ⟨l, hgrowsl, hl, -⟩ := hleft
  obtain ⟨r, hgrowsr, hr, hedge⟩ := hright
  refine ⟨_, hgrowsl.binary rfl hgrowsr _, ?_, hedge⟩
  rw [GeometryTree.region?, hl, hr]
  rfl

end Parses

/-- Every phrase is read as its region. -/
theorem parses_of_phrase (hgr : gr.allows .shorthands = true) (h : Phrase level x e ts) :
    Parses gr level x e ts := by
  induction h with
  | surface kind value =>
    intro room g c vs ls us hc hvs
    refine (Yields.number kind value hc hvs).mono ?_
    rintro o g' ws ⟨hws, f, hgrows, hf⟩
    exact ⟨hws, _, hgrows, by rw [GeometryTree.region?, Field.toInt?, hf]; rfl, hf⟩
  | cell mark layout kind value => exact .cell mark layout kind value
  | complement mark layout operand ih => exact .complement mark layout operand ih
  | group opening layout inner layout' closing ih =>
    exact .group opening layout inner ih layout' closing
  | run _ layout token goesOn numbers ih => exact .run hgr layout token goesOn numbers ih
  | intersection _ layout right ihl ihr => exact .intersection right layout ihl ihr
  | union _ layout mark layout' right ihl ihr => exact .union layout mark layout' right ihl ihr
  | ofGroup _ ih =>
    intro room g c vs ls us hc hvs
    refine (ih room g c vs ls us hc hvs).mono ?_
    rintro o g' ws ⟨hws, tree, hgrows, -, htree⟩
    exact ⟨hws, tree, hgrows, htree⟩
  | ofFactor _ ih =>
    intro room g c vs ls us S hc hvs hS
    refine (ih room g c vs ls us hc hvs).bind ?_
    rintro o g' c' ⟨hc', ho⟩
    exact .loopBuilding (hS o g' c' hc' ho)
  | @ofIntersection x e ts _ ih =>
    intro room g c vs ls us S hc hvs hends hS
    have hchain := ih room g c vs ls us (fun o g' ws ↦ ws = us ∧ o.Shows g g' x e) hc hvs
      fun o g' c' hc' ho ↦ .stop_chain (by rwa [hc']) ⟨hc', ho⟩
    refine hchain.bind ?_
    rintro o g' c' ⟨hc', ho⟩
    exact .loopBuilding (hS o g' c' hc' ho)

end Building

end TransportDeck
