import TransportDeck.Grammar.Geometry
import TransportDeck.Proofs.Grammar.Lists
import TransportDeck.Proofs.Node.GeometryTree

/-!
# What geometries read

The grammar of geometries as a relation between tokens and the tree that is read from them, with all
of its layout. The reader places the entries of an operand behind those that are there, operands
before operators; a tree therefore takes up the places that were added while it was read.  What is
to be known about the trees is proved by induction on the relation, away from the reader.
-/

namespace TransportDeck

/-! ## The grammar -/

/-- The levels of phrases, from parentheses to whole geometries. -/
inductive PhraseLevel where
  | group
  | factor
  | intersection
  | union

def AllLayout (ls : List Token) : Prop := ∀ t ∈ ls, t.isLayout = true

/-- The layout that tokens make up, if there are any. -/
def layoutOf (ls : List Token) : Option Layout :=
  if ls.isEmpty then none else some (ls.foldl Layout.pushToken .empty)

/-- A mark and the layout behind it. -/
def markedLayout (mark : Layout) (ls : List Token) : Layout := mark ++ (layoutOf ls).getD .empty

/-- The value that a run ends with. -/
def Shorthand.edge? (s : Shorthand) : Option Value := s.members.getLast?.bind Field.signed

/-- The value at the right edge of a tree. -/
def GeometryTree.edge? : GeometryTree → Option Value
  | leaf f => f.signed
  | run s => s.edge?
  | binary _ _ _ r => r.edge?
  | complement _ t | group _ t _ => t.edge?

/-- A run of surfaces that goes on from the value before it. -/
def Shorthand.GoesOn (s : Shorthand) (before : Option Value) (token : String) : Prop :=
  ∃ id, copies id (.chained before) token none = .ok s ∨
    multiply id (.chained before) token none = .ok s

/-- The tokens are a phrase that the tree is read from, and behind the tree stands this layout.  At
the level of groups stand numbers, too: a complement takes either.  No more than so many factors
stand in one another. -/
inductive GeometryTree.Parsed :
    PhraseLevel → Nat → GeometryTree → List Token → Option Layout → Prop where
  | leaf {room : Nat} {t : Token} {ls : List Token} {f : Field} (kind : t.kind.isNumber = true)
      (value : Field.parse? t.text .int none = some f) (behind : AllLayout ls) :
      Parsed .group (room + 1) (.leaf f.asSignedIdentifier) (t :: ls) (layoutOf ls)
  | group {room : Nat} {m m' : Token} {ls ts ls' : List Token} {x : GeometryTree}
      {l : Option Layout} (mark : m.kind = .leftParen) (layout : AllLayout ls)
        (inner : Parsed .union room x ts l)
      (mark' : m'.kind = .rightParen) (behind : AllLayout ls') :
      Parsed .group (room + 1)
        (.group (markedLayout (.ofLiteral "(") ls) x ((l.getD .empty).pushLiteral ")"))
          (m :: (ls ++ (ts ++ m' :: ls'))) (layoutOf ls')
  | complement {room : Nat} {m : Token} {ls ts : List Token} {x : GeometryTree} {l : Option Layout}
      (mark : m.kind = .complement) (layout : AllLayout ls) (operand : Parsed .group room x ts l) :
      Parsed .factor (room + 1) (.complement (markedLayout (.ofLiteral "#") ls) x)
        (m :: (ls ++ ts)) l
  | run {room : Nat} {t : Token} {ts ls : List Token} {x : GeometryTree} {l : Option Layout}
      {s : Shorthand} (left : Parsed .intersection room x ts l) (token : t.kind = .shorthand s.kind)
        (goesOn : s.GoesOn x.edge? t.text)
      (behind : AllLayout ls) :
      Parsed .intersection room (.binary .intersection x (l.getD .empty) (.run s))
        (ts ++ t :: ls) (layoutOf ls)
  | intersection {room : Nat} {ts us : List Token} {x y : GeometryTree} {l l' : Option Layout}
      (left : Parsed .intersection room x ts l) (right : Parsed .factor room y us l') :
      Parsed .intersection room (.binary .intersection x (l.getD .empty) y) (ts ++ us) l'
  | union {room : Nat} {m : Token} {ts ls us : List Token} {x y : GeometryTree}
      {l l' : Option Layout} (left : Parsed .union room x ts l) (mark : m.kind = .colon)
        (layout : AllLayout ls)
      (right : Parsed .intersection room y us l') :
      Parsed .union room (.binary .union x (markedLayout ((l.getD .empty).pushLiteral ":") ls) y)
        (ts ++ m :: (ls ++ us)) l'
  | ofGroup {room : Nat} {ts : List Token} {x : GeometryTree} {l : Option Layout}
      (h : Parsed .group room x ts l) : Parsed .factor room x ts l
  | ofFactor {room : Nat} {ts : List Token} {x : GeometryTree} {l : Option Layout}
      (h : Parsed .factor room x ts l) : Parsed .intersection room x ts l
  | ofIntersection {room : Nat} {ts : List Token} {x : GeometryTree} {l : Option Layout}
      (h : Parsed .intersection room x ts l) : Parsed .union room x ts l

/-- The operand was built onto a geometry as a tree that is read from these tokens. -/
def Operand.Parsed (level : PhraseLevel) (room : Nat) (o : Operand) (g g' : Geometry)
    (ts : List Token) : Prop :=
  ∃ tree, g.Grows g' o.id tree ∧ tree.Parsed level room ts o.behind

/-- The value at the right edge of a place is that of the tree there. -/
theorem Geometry.Holds.edgeValue_eq {g : Geometry} {id : Nat} {tree : GeometryTree} {ids : List Nat}
    (h : g.Holds id tree ids) {fuel : Nat} (hfuel : tree.depth ≤ fuel) :
    Production.edgeValue g fuel id = tree.edge? := by
  induction h generalizing fuel with
  | leaf entry | run entry =>
    obtain ⟨n, rfl⟩ : ∃ n, fuel = n + 1 :=
      ⟨fuel - 1, by simp only [GeometryTree.depth] at hfuel; omega⟩
    simp only [Production.edgeValue, entry]
    rfl
  | binary entry _ _ _ _ ih | complement entry _ ih | group entry _ ih =>
    simp only [GeometryTree.depth] at hfuel
    obtain ⟨n, rfl⟩ : ∃ n, fuel = n + 1 := ⟨fuel - 1, by omega⟩
    simp only [Production.edgeValue, entry]
    exact ih (by omega)

/-- A tree that has grown is no deeper than the geometry is large. -/
theorem Geometry.Grows.edgeValue_eq {g g' : Geometry} {id : Nat} {tree : GeometryTree}
    (h : g.Grows g' id tree) : Production.edgeValue g' g'.size id = tree.edge? :=
  h.holds.edgeValue_eq (h.holds.depth_le_size List.nodup_range')

/-! ## Building -/

namespace Building

variable {α β : Type} {g : Geometry} {c : Cursor}

/-- What is built onto a geometry is related to the tokens that are read. -/
def Reads (b : Building α) (g : Geometry) (c : Cursor) (Q : α → Geometry → List Token → Prop) :
    Prop :=
  Production.Reads (b g) c fun r ts ↦ Q r.1 r.2 ts

variable {b : Building α} {f : α → Building β} {Q : α → Geometry → List Token → Prop}
  {R : β → Geometry → List Token → Prop}

namespace Reads

theorem mono {Q' : α → Geometry → List Token → Prop} (h : Reads b g c Q)
    (himp : ∀ a g' ts, Q a g' ts → Q' a g' ts) : Reads b g c Q' :=
  Production.Reads.mono h fun r ts ↦ himp r.1 r.2 ts

theorem pure {a : α} (h : Q a g []) : Reads (pure a) g c Q := Production.Reads.pure h

/-- A builder reads what its two halves read, one behind the other. -/
theorem bind (hb : Reads b g c Q) (hf : ∀ a g' ts c', c.rest = ts ++ c'.rest → Q a g' ts →
    Reads (f a) g' c' fun b g'' us ↦ R b g'' (ts ++ us)) : Reads (b >>= f) g c R :=
  Production.Reads.bind hb fun r ts c' hts hQ ↦ hf r.1 r.2 ts c' hts hQ

/-- A production leaves the geometry alone. -/
theorem lift {p : Production α} {P : α → List Token → Prop} (hp : Production.Reads p c P)
    (hf : ∀ a ts c', c.rest = ts ++ c'.rest → P a ts →
      Reads (f a) g c' fun b g' us ↦ R b g' (ts ++ us)) :
    Reads (liftM p >>= f) g c R := by
  refine bind (Q := fun a g' ts ↦ g' = g ∧ P a ts) (Production.Reads.map (hp.mono ?_)) ?_
  · exact fun a ts hP ↦ ⟨rfl, hP⟩
  · rintro a _ ts c' hts ⟨rfl, hP⟩
    exact hf a ts c' hts hP

/-- A new entry stands behind the others, and no token is read for it. -/
theorem place {e : GeometryEntry} {f : Nat → Building β}
    (hf : Reads (f g.size) (g.push e) c R) : Reads (Production.place e >>= f) g c R := hf

/-- A new branch stands on the operands in front of it. -/
theorem join {op : GeometryOp} {left right : Operand} {mark : Layout} {f : Operand → Building β}
    (hf : Reads (f ⟨g.size, right.behind⟩) (g.push (.branch (.binary op left.id mark right.id)))
      c R) :
    Reads (Production.join op left mark right >>= f) g c R := hf

theorem current {f : Option Token → Building β} (h : Reads (f c.rest.head?) g c R) :
    Reads (liftM Production.current? >>= f) g c R := by
  rw [← c.current?_eq_head?] at h
  exact h

theorem currentKind {f : Option TokenKind → Building β}
    (h : Reads (f (c.rest.head?.map (·.kind))) g c R) :
    Reads (liftM Production.currentKind? >>= f) g c R := by
  rw [← c.current?_eq_head?] at h
  exact h

theorem get {f : Geometry → Building β} (h : Reads (f g) g c R) : Reads (get >>= f) g c R := h

theorem throw {e : SyntaxError} {Q : α → Geometry → List Token → Prop} :
    Reads (throw e : Building α) g c Q := by
  rintro - _ _ ⟨⟩

theorem unexpected {expected : String} {Q : α → Geometry → List Token → Prop} :
    Reads (liftM (Production.unexpected expected : Production α)) g c Q := by
  rintro - _ _ ⟨⟩

end Reads

/-- What is built onto any geometry is read at this level. -/
def ReadsPhrases (level : PhraseLevel) (room : Nat) (b : Building Operand) : Prop :=
  ∀ g c, Reads b g c fun o g' ts ↦ o.Parsed level room g g' ts

/-- What starts as a number or a parenthesis does is read as one. -/
def ReadsFactors (room : Nat) (b : Building Operand) : Prop :=
  ∀ g c, Reads b g c fun o g' ts ↦ o.Parsed .factor room g g' ts ∧
    (c.rest.head?.any Production.startsOperand = true → o.Parsed .group room g g' ts)

end Building

namespace Production

variable {c : Cursor} {t : Token} {us : List Token}

/-- Layout is read with the tokens that it is made of. -/
theorem reads_layout : Reads layout c fun l ls ↦ l = layoutOf ls ∧ AllLayout ls := by
  refine (Reads.takeWhile Token.isLayout).bind ?_
  rintro _ ls _ - ⟨rfl, hls⟩
  exact .pure ((List.append_nil _).symm ▸ ⟨rfl, hls⟩)

/-- An opening mark is its token and the layout behind it. -/
theorem reads_opening (hrest : c.rest = t :: us) (mark : String) :
    Reads (opening mark) c fun l ts ↦ ∃ ls, ts = t :: ls ∧ AllLayout ls ∧
      l = markedLayout (.ofLiteral mark) ls := by
  refine (Reads.advance hrest).bind ?_
  rintro _ _ c' - rfl
  refine .map (reads_layout.mono ?_)
  rintro _ ls ⟨rfl, hls⟩
  exact ⟨ls, rfl, hls, rfl⟩

end Production

namespace Building

variable {gr : Grammar} {g : Geometry} {c : Cursor} {room : Nat} {t : Token} {us : List Token}
  {operand inner : Building Operand}

namespace ReadsPhrases

/-! ### Factors -/

/-- A number is read as a leaf. -/
theorem leaf (hrest : c.rest = t :: us) (hkind : t.kind.isNumber = true) :
    Reads (Production.leaf t) g c fun o g' ts ↦ o.Parsed .group (room + 1) g g' ts := by
  unfold Production.leaf
  split
  · exact .throw
  · next f hf =>
    refine .lift (Production.Reads.advance hrest) ?_
    rintro _ _ c' - rfl
    refine .place (.lift Production.reads_layout ?_)
    rintro _ ls _ - ⟨rfl, hls⟩
    refine .pure ?_
    rw [List.append_nil]
    exact ⟨_, .leaf g _, .leaf hkind hf hls⟩

/-- The mark of a complement and a factor are read as a complement. -/
theorem complement (hfactor : ReadsFactors room operand) (hrest : c.rest = t :: us)
    (hkind : t.kind = .complement) :
    Reads (Production.complement operand) g c fun o g' ts ↦
      o.Parsed .factor (room + 1) g g' ts := by
  refine .lift (Production.reads_opening hrest "#") ?_
  rintro _ _ c₁ - ⟨ls, rfl, hls, rfl⟩
  refine .current ?_
  split_ifs with hstarts
  · refine (hfactor g c₁).bind fun o g₁ ts c₂ _ ho ↦ .place (.pure ?_)
    obtain ⟨tree, hgrows, hparsed⟩ := ho.2 hstarts
    rw [List.append_nil, List.cons_append]
    exact ⟨_, hgrows.complement _, .complement hkind hls hparsed⟩
  · exact .unexpected

/-- Parentheses are read with the union inside them. -/
theorem group (hinner : ReadsPhrases .union room inner) (hrest : c.rest = t :: us)
    (hkind : t.kind = .leftParen) :
    Reads (Production.group inner) g c fun o g' ts ↦ o.Parsed .group (room + 1) g g' ts := by
  refine .lift (Production.reads_opening hrest "(") ?_
  rintro _ _ c₁ - ⟨ls, rfl, hls, rfl⟩
  refine (hinner g c₁).bind fun o g₁ ts c₂ _ ho ↦ .currentKind ?_
  split_ifs with hright
  · obtain ⟨r, hhead, hkind'⟩ := Option.map_eq_some_iff.mp (beq_iff_eq.mp hright)
    obtain ⟨vs, hrest'⟩ := List.head?_eq_some_iff.mp hhead
    refine .lift (Production.Reads.advance hrest') ?_
    rintro _ _ c₃ - rfl
    refine .place (.lift Production.reads_layout ?_)
    rintro _ ls' _ - ⟨rfl, hls'⟩
    refine .pure ?_
    obtain ⟨tree, hgrows, hparsed⟩ := ho
    rw [List.append_nil, List.singleton_append, List.cons_append]
    exact ⟨_, hgrows.group _ _, .group hkind hls hparsed hkind' hls'⟩
  · exact .unexpected

/-! ### Intersections and unions -/

/-- A run stands behind the operands that have been joined so far. -/
def ParsedRun (before : Option Value) (g g' : Geometry) (o : Operand) (ts : List Token) : Prop :=
  ∃ s t ls, g.Grows g' o.id (.run s) ∧ ts = t :: ls ∧ t.kind = .shorthand s.kind ∧
    s.GoesOn before t.text ∧ AllLayout ls ∧ o.behind = layoutOf ls

/-- A run of surfaces is read from its token, its bounds and the layout. -/
theorem surfaceRun {kind : ShorthandKind} {before : Nat} (hrest : c.rest = t :: us)
    (hkind : t.kind = .shorthand kind) :
    Reads (Production.surfaceRun gr kind t before) g c fun o g' ts ↦
      ParsedRun (Production.edgeValue g g.size before) g g' o ts := by
  refine .lift (Production.Reads.advance hrest) ?_
  rintro _ _ c₁ - rfl
  split_ifs
  · exact .throw
  refine .get ?_
  have built {e : Except ShorthandError Shorthand}
    (he : ∀ s, e = .ok s → s.kind = kind ∧
        s.GoesOn (Production.edgeValue g g.size before) t.text) :
      Reads (liftM (Production.orMalformed t.span e) >>= fun s ↦ (do
          let id ← Production.place (.run s)
          return (⟨id, ← Production.layout⟩ : Operand) : Building Operand)) g c₁
        fun o g' ts ↦ ParsedRun (Production.edgeValue g g.size before) g g' o ([t] ++ ts) := by
    refine .lift Production.Reads.orMalformed ?_
    rintro s _ c₂ - ⟨hs, rfl⟩
    obtain ⟨hskind, hgoesOn⟩ := he s hs
    refine .place (.lift Production.reads_layout ?_)
    rintro _ ls _ - ⟨rfl, hls⟩
    refine .pure ?_
    rw [List.append_nil]
    exact ⟨s, t, ls, .run g s, rfl, hskind ▸ hkind, hgoesOn, hls, rfl⟩
  dsimp only
  split
  · exact built fun s hs ↦ ⟨Shorthand.kind_of_copies hs, _, .inl hs⟩
  · exact built fun s hs ↦ ⟨Shorthand.kind_of_multiply hs, _, .inr hs⟩
  · exact .bind (Q := fun _ _ _ ↦ False) .throw fun _ _ _ _ _ h ↦ h.elim

/-- A factor, or a run behind the operands that have been joined so far. -/
def ParsedNext (room : Nat) (before : Option Value) (g g' : Geometry) (o : Operand)
    (ts : List Token) : Prop :=
  o.Parsed .factor room g g' ts ∨ ParsedRun before g g' o ts

/-- A further factor is a factor of the grammar, or a run behind one. -/
theorem nextFactor? (hfactor : ReadsFactors room operand) (before : Nat) :
    Reads (Production.nextFactor? gr operand before) g c fun r g' ts ↦
      match r with
      | some o => ParsedNext room (Production.edgeValue g g.size before) g g' o ts
      | none => ts = [] := by
  refine .current ?_
  split
  · exact .pure rfl
  next t hhead =>
  obtain ⟨us, hrest⟩ := List.head?_eq_some_iff.mp hhead
  have found {b : Building Operand}
      (hb : Reads b g c fun o g' ts ↦
        ParsedNext room (Production.edgeValue g g.size before) g g' o ts) :
      Reads (do return some (← b)) g c fun r g' ts ↦
        match r with
        | some o => ParsedNext room (Production.edgeValue g g.size before) g g' o ts
        | none => ts = [] :=
    hb.bind fun o g' ts c' _ ho ↦ .pure (by simpa using ho)
  have hnext : Reads operand g c fun o g' ts ↦
      ParsedNext room (Production.edgeValue g g.size before) g g' o ts :=
    (hfactor g c).mono fun o g' ts ho ↦ .inl ho.1
  split
  · next hkind => exact found ((surfaceRun hrest hkind).mono fun o g' ts ho ↦ .inr ho)
  · exact found hnext
  · exact found hnext
  · exact found hnext
  · exact found hnext
  · exact .pure rfl

/-- The tokens of an operand that is lengthened by rounds. -/
theorem loopBuilding {level : PhraseLevel} {round : Operand → Building (Option Operand)}
    {g₀ : Geometry} {o : Operand} {ts : List Token} (ho : o.Parsed level room g₀ g ts)
    (hround : ∀ o g ts c, Operand.Parsed level room o g₀ g ts → Reads (round o) g c fun r g' us ↦
      match r with
      | some o' => o'.Parsed level room g₀ g' (ts ++ us)
      | none => us = []) :
    Reads (Production.loopBuilding round o) g c fun o' g' us ↦
      o'.Parsed level room g₀ g' (ts ++ us) := by
  refine Production.Reads.loop (I := fun (r : Operand × Geometry) us ↦
    r.1.Parsed level room g₀ r.2 (ts ++ us)) ?_ (by simpa using ho)
  rintro ⟨o', g'⟩ us c' - ho'
  refine Production.Reads.bind (hround o' g' _ c' ho') ?_
  rintro ⟨_ | o'', g''⟩ vs c'' - h
  · exact .pure (by simpa using h)
  · exact .pure (by simpa using h)

/-- A chain of factors is read as an intersection. -/
theorem intersection (hfactor : ReadsFactors room operand) :
    ReadsPhrases .intersection room (Production.intersection gr operand) := by
  intro g c
  refine (hfactor g c).bind fun first g₁ ts c₁ _ hfirst ↦ ?_
  have hstart : first.Parsed .intersection room g g₁ ts := by
    obtain ⟨tree, hgrows, hparsed⟩ := hfirst.1
    exact ⟨tree, hgrows, .ofFactor hparsed⟩
  refine loopBuilding hstart fun left g₂ ts c₂ hleft ↦ ?_
  refine (nextFactor? hfactor left.id).bind fun r g₃ us c₃ _ hr ↦ ?_
  cases r with
  | none => exact .pure (by simpa using hr)
  | some right =>
    refine .join (.pure ?_)
    rw [List.append_nil]
    obtain ⟨l, hgrowsl, hl⟩ := hleft
    have hop : GeometryOp.intersection.isBinary = true := rfl
    obtain ⟨r, hgrowsr, hr⟩ | ⟨s, t, ls, hgrowsr, rfl, htoken, hgoesOn, hls, hbehind⟩ := hr
    · exact ⟨_, hgrowsl.binary hop hgrowsr _, .intersection hl hr⟩
    · rw [hgrowsl.edgeValue_eq] at hgoesOn
      exact ⟨_, hgrowsl.binary hop hgrowsr _, hbehind ▸ .run hl htoken hgoesOn hls⟩

/-- Chains with colons between them are read as a union. -/
theorem union (hfactor : ReadsFactors room operand) :
    ReadsPhrases .union room (Production.union gr operand) := by
  intro g c
  refine (intersection hfactor g c).bind fun first g₁ ts c₁ _ hfirst ↦ ?_
  have hstart : first.Parsed .union room g g₁ ts := by
    obtain ⟨tree, hgrows, hparsed⟩ := hfirst
    exact ⟨tree, hgrows, .ofIntersection hparsed⟩
  refine loopBuilding hstart fun left g₂ ts c₂ hleft ↦ .currentKind ?_
  split_ifs with hcolon
  · obtain ⟨t, hhead, hkind⟩ := Option.map_eq_some_iff.mp (beq_iff_eq.mp hcolon)
    obtain ⟨us, hrest⟩ := List.head?_eq_some_iff.mp hhead
    refine .lift (P := fun l ms ↦ ∃ ls, ms = t :: ls ∧ AllLayout ls ∧
      l = markedLayout ((left.behind.getD .empty).pushLiteral ":") ls) ?_ ?_
    · refine (Production.Reads.advance hrest).bind ?_
      rintro _ _ c₃ - rfl
      refine .map (Production.reads_layout.mono ?_)
      rintro _ ls ⟨rfl, hls⟩
      exact ⟨ls, rfl, hls, rfl⟩
    · rintro _ _ c₃ - ⟨ls, rfl, hls, rfl⟩
      refine (intersection hfactor g₂ c₃).bind fun right g₃ vs c₄ _ hright ↦ .join (.pure ?_)
      obtain ⟨l, hgrowsl, hl⟩ := hleft
      obtain ⟨r, hgrowsr, hr⟩ := hright
      have hop : GeometryOp.union.isBinary = true := rfl
      rw [List.append_nil, List.cons_append]
      exact ⟨_, hgrowsl.binary hop hgrowsr _, .union hl hkind hls hr⟩
  · exact .pure rfl

/-- With so much room, factors are read in it. -/
theorem factor (gr : Grammar) (room : Nat) : ReadsFactors room (Production.factor gr room) := by
  induction room with
  | zero =>
    intro g c
    rintro - _ _ ⟨⟩
  | succ room ih =>
    intro g c
    refine Production.Reads.nested fun c' hc' ↦ ?_
    have enclosed {b : Building Operand}
        (hb : Reads b g c' fun o g' ts ↦ o.Parsed .group (room + 1) g g' ts) :
        Reads b g c' fun o g' ts ↦ o.Parsed .factor (room + 1) g g' ts ∧
          (c.rest.head?.any Production.startsOperand = true →
          o.Parsed .group (room + 1) g g' ts) := by
      refine hb.mono fun o g' ts ho ↦ ⟨?_, fun _ ↦ ho⟩
      obtain ⟨tree, hgrows, hparsed⟩ := ho
      exact ⟨tree, hgrows, .ofGroup hparsed⟩
    refine (Reads.current ?_ : Reads _ g c' fun (o : Operand) g' ts ↦
      o.Parsed .factor (room + 1) g g' ts ∧
        (c.rest.head?.any Production.startsOperand = true → o.Parsed .group (room + 1) g g' ts))
    split
    · exact .unexpected
    next t hhead =>
    obtain ⟨us, hrest⟩ := List.head?_eq_some_iff.mp hhead
    split
    · next hkind => exact enclosed (leaf hrest (by rw [hkind]; rfl))
    · next hkind => exact enclosed (leaf hrest (by rw [hkind]; rfl))
    · next hkind =>
      refine (complement ih hrest hkind).mono fun o g' ts ho ↦ ⟨ho, fun hstarts ↦ ?_⟩
      rw [← hc', hhead] at hstarts
      simp [Production.startsOperand, hkind, TokenKind.isNumber] at hstarts
    · next hkind => exact enclosed (group (union ih) hrest hkind)
    · exact .unexpected

end ReadsPhrases

end Building

/-! ## The whole -/

/-- The arena of a geometry that was read is one tree. -/
theorem Production.reads_geometry (gr : Grammar) {c : Cursor} : Reads (geometry gr) c fun g ts ↦
    ∃ tree, g.IsTree tree ∧ tree.Parsed .union (Limits.parseDepth - c.depth) ts g.trailing := by
  unfold geometry
  split_ifs
  · exact .unexpected
  have hfactor := Building.ReadsPhrases.factor gr (Limits.parseDepth - c.depth)
  refine .get (.bind (Building.ReadsPhrases.union hfactor .empty c) ?_)
  rintro ⟨root, g⟩ ts c' - ⟨tree, hgrows, hparsed⟩
  have hholds := hgrows.holds
  have hempty : Geometry.empty.size = 0 := rfl
  rw [hempty, Nat.sub_zero, ← List.range_eq_range'] at hholds
  refine .pure ⟨tree, ⟨hholds.congr fun _ _ ↦ rfl⟩, ?_⟩
  rwa [List.append_nil]

/-! ## Text -/

/-- The layout of tokens has the text of these tokens. -/
theorem layoutText_layoutOf (ls : List Token) : layoutText (layoutOf ls) = textOf ls := by
  cases ls with
  | nil => rfl
  | cons t ls => exact (Layout.text_foldl_pushToken _ _).trans (String.empty_append)

/-- A mark between operands has its own text and that of the layout behind it. -/
theorem text_markedLayout (mark : Layout) (ls : List Token) :
    (markedLayout mark ls).text = mark.text ++ textOf ls := by
  rw [markedLayout, Layout.text_append, Layout.text_getD, layoutText_layoutOf]

/-- A run that goes on from the number before it was read from its own token. -/
theorem Shorthand.GoesOn.readAs {s : Shorthand} {before : Option Value} {token : String}
    (h : s.GoesOn before token) : s.ReadAs token := by
  obtain ⟨id, h | h⟩ := h
  · simpa [Lead.source, layoutText] using copies_ok h trivial
  · simpa [Lead.source, layoutText] using multiply_ok h trivial

/-- The values of a tree that was read are those of its tokens, and the tokens are all of its
source. -/
theorem GeometryTree.Parsed.readAs {level : PhraseLevel} {room : Nat} {tree : GeometryTree}
    {ts : List Token} {l : Option Layout} (h : tree.Parsed level room ts l)
    (hlex : ∀ t ∈ ts, Lexer.Spells t.kind t.text) :
    tree.IsRead ∧ tree.source ++ layoutText l = textOf ts := by
  have spelled {m : Token} {s : String} (hm : Lexer.Spells m.kind m.text)
    (hs : Lexer.spelling? m.kind = some s) :
      m.text = s := hm.mark s hs
  induction h with
  | leaf _ value =>
    have hparsed := Field.parsed_of_parse? value
    refine ⟨⟨hparsed.isRead_asSignedIdentifier,
      Field.isIdentifier_asSignedIdentifier (Field.kind_of_parse? value)⟩, ?_⟩
    rw [source, Field.source_asSignedIdentifier, hparsed.source_eq,
      layoutText_layoutOf, textOf_cons]
    simp [layoutText]
  | group mark _ _ mark' _ ih =>
    simp only [List.forall_mem_cons, List.forall_mem_append] at hlex
    obtain ⟨hread, hsource⟩ := ih hlex.2.2.1
    have hopening := spelled hlex.1 (by rw [mark]; rfl)
    have hclosing := spelled hlex.2.2.2.1 (by rw [mark']; rfl)
    refine ⟨hread, ?_⟩
    simp [source, text_markedLayout, Layout.text_getD, layoutText_layoutOf, ← hsource, hopening,
      hclosing, String.append_assoc]
  | complement mark _ _ ih =>
    simp only [List.forall_mem_cons, List.forall_mem_append] at hlex
    obtain ⟨hread, hsource⟩ := ih hlex.2.2
    have hmark := spelled hlex.1 (by rw [mark]; rfl)
    refine ⟨hread, ?_⟩
    simp [source, text_markedLayout, ← hsource, hmark, String.append_assoc]
  | run _ _ goesOn _ ih =>
    simp only [List.forall_mem_cons, List.forall_mem_append] at hlex
    obtain ⟨hread, hsource⟩ := ih hlex.1
    obtain ⟨hrun, hrunSource⟩ := goesOn.readAs
    refine ⟨⟨hread, hrun⟩, ?_⟩
    simp [source, Layout.text_getD, layoutText_layoutOf, ← hsource, hrunSource, String.append_assoc]
  | intersection _ _ ihl ihr =>
    simp only [List.forall_mem_append] at hlex
    obtain ⟨hreadl, hsourcel⟩ := ihl hlex.1
    obtain ⟨hreadr, hsourcer⟩ := ihr hlex.2
    refine ⟨⟨hreadl, hreadr⟩, ?_⟩
    simp [source, Layout.text_getD, ← hsourcel, ← hsourcer, String.append_assoc]
  | union _ mark _ _ ihl ihr =>
    simp only [List.forall_mem_cons, List.forall_mem_append] at hlex
    obtain ⟨hreadl, hsourcel⟩ := ihl hlex.1
    obtain ⟨hreadr, hsourcer⟩ := ihr hlex.2.2.2
    have hmark := spelled hlex.2.1 (by rw [mark]; rfl)
    refine ⟨⟨hreadl, hreadr⟩, ?_⟩
    simp [source, text_markedLayout, Layout.text_getD, ← hsourcel, ← hsourcer,
      hmark, String.append_assoc]
  | ofGroup _ ih | ofFactor _ ih | ofIntersection _ ih => exact ih hlex

/-- The source of a geometry is all of the text that it was read from. -/
theorem Production.Reads.geometry (gr : Grammar) {c : Cursor} :
    Reads (geometry gr) c fun g ts ↦ ∃ tree, g.IsTree tree ∧ tree.IsRead ∧
      g.source = textOf ts := by
  intro hlex g c' hrun
  obtain ⟨hc', ts, hts, tree, htree, hparsed⟩ := reads_geometry gr hlex g c' hrun
  obtain ⟨hread, hsource⟩ := hparsed.readAs fun t ht ↦ hlex t (hts ▸ List.mem_append_left _ ht)
  exact ⟨hc', ts, hts, tree, htree, hread, htree.source_eq.trans hsource⟩

end TransportDeck
