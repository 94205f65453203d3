import TransportDeck.Proofs.Grammar.Agreement
import TransportDeck.Region.Written

/-!
# Records in any letter case

What is built onto a geometry does not depend on letter case, and neither does the region that a
geometry describes.  Every kind of record is read alike in any letter case, and its tokens may be
replaced by the same tokens in another one.
-/

namespace TransportDeck

open Text

/-! ## Edges -/

namespace Production

/-- The number at the right edge of a geometry in small letters. -/
theorem edgeValue_lowered (g : Geometry) (fuel id : Nat) :
    edgeValue g.lowered fuel id = (edgeValue g fuel id).map Value.lowered := by
  induction fuel generalizing id with
  | zero => rfl
  | succ fuel ih =>
    rw [edgeValue, edgeValue, g.entry?_lowered]
    cases g.entry? id with
    | none => rfl
    | some e =>
      cases e with
      | leaf f => exact f.signed_lowered
      | run r =>
        simp only [Option.map_some, GeometryEntry.lowered, Shorthand.lowered, List.getLast?_map]
        cases r.members.getLast? with
        | none => rfl
        | some f => exact f.signed_lowered
      | branch b => exact ih _

/-- The number at the right edge of a geometry does not depend on the case of letters. -/
theorem edgeValue_alike {g g' : Geometry} (h : g.lowered = g'.lowered) (fuel id : Nat) :
    (edgeValue g fuel id).map Value.lowered = (edgeValue g' fuel id).map Value.lowered := by
  rw [← edgeValue_lowered, h, edgeValue_lowered]

end Production

/-! ## Building -/

namespace Building

variable {α β γ δ : Type}

/-- Started from geometries that are alike, both productions agree and leave geometries that are
alike. -/
def Agree (V : α → β → Prop) (b : Building α) (b' : Building β) : Prop :=
  ∀ ⦃g g' : Geometry⦄, g.lowered = g'.lowered →
    Production.Agree (fun x y ↦ V x.1 y.1 ∧ x.2.lowered = y.2.lowered) (b g) (b' g')

namespace Agree

variable {V V' : α → β → Prop} {W : γ → δ → Prop} {b : Building α} {b' : Building β}
  {p : Production α} {q : Production β} {f : α → Building γ} {f' : β → Building δ}

theorem pure {a : α} {a' : β} (h : V a a') : Agree V (pure a) (pure a') :=
  fun _ _ hg ↦ .pure ⟨h, hg⟩

/-- Two builders agree if their first halves do and the rest agrees on related results. -/
theorem bind (hb : Agree V b b') (hf : ∀ a a', V a a' → Agree W (f a) (f' a')) :
    Agree W (b >>= f) (b' >>= f') :=
  fun _ _ hg ↦ (hb hg).bind fun x y hxy ↦ hf x.1 y.1 hxy.1 hxy.2

/-- A production leaves the geometry alone. -/
theorem lift (hp : Production.Agree V p q) : Agree V (liftM p) (liftM q) :=
  fun _ _ hg ↦ hp.bind fun _ _ h ↦ .pure ⟨h, hg⟩

theorem throw {e e' : SyntaxError} (h : e.lowered = e'.lowered) : Agree V (throw e) (throw e') :=
  lift (V := V) (.throw h)

theorem unexpected (expected : String) :
    Agree V (liftM (Production.unexpected expected : Production α))
      (liftM (Production.unexpected expected : Production β)) := lift (.unexpected expected)

theorem get : Agree (fun g g' : Geometry ↦ g.lowered = g'.lowered) get get :=
  fun _ _ hg ↦ .pure ⟨hg, hg⟩

/-- Entries that agree are placed at one place. -/
theorem place {e e' : GeometryEntry} (he : e.lowered = e'.lowered) :
    Agree Eq (Production.place e) (Production.place e') :=
  fun _ _ hg ↦ .pure ⟨Geometry.size_alike hg, Geometry.push_alike hg he⟩

/-! ## Operands -/

/-- Two operands at the same place. -/
def SamePlace (o o' : Operand) : Prop := o.id = o'.id

/-- A new operand and the layout behind it. -/
theorem operand {e e' : GeometryEntry} (he : e.lowered = e'.lowered) : Agree SamePlace
    (do
      let id ← Production.place e
      return (⟨id, ← Production.layout⟩ : Operand))
    (do
      let id ← Production.place e'
      return (⟨id, ← Production.layout⟩ : Operand)) :=
  (place he).bind fun _ _ hid ↦ (lift Production.Agree.layout).bind fun _ _ _ ↦ .pure hid

/-- A parenthesis is opened, or missed, at both. -/
theorem opening (mark : String) :
    Production.Agree (fun _ _ ↦ True) (Production.opening mark) (Production.opening mark) :=
  Production.Agree.advance.bind fun _ _ _ ↦ Production.Agree.layout.bind fun _ _ _ ↦ .pure trivial

/-- A colon between operands is found, or missed, at both. -/
theorem colon (l l' : Option Layout) :
    Production.Agree (fun _ _ ↦ True) (Production.colon l) (Production.colon l') :=
  Production.Agree.advance.bind fun _ _ _ ↦ Production.Agree.layout.bind fun _ _ _ ↦ .pure trivial

/-- A leaf is placed at one place in both geometries. -/
theorem leaf {t u : Token} (htu : t.lowered = u.lowered) :
    Agree SamePlace (Production.leaf t) (Production.leaf u) := by
  have htext := Token.text_alike htu
  unfold Production.leaf
  obtain ⟨hf, hf'⟩ | ⟨f, f', hf, hf', hlowered⟩ :=
    Option.cases_of_map_eq (Field.parse?_alike htext .int)
  · rw [hf, hf', Token.span_alike htu]
    exact .throw (congrArg (SyntaxError.unexpectedToken "surface number" · u.span) htext)
  · rw [hf, hf']
    refine (lift Production.Agree.advance).bind fun _ _ _ ↦ operand (congrArg GeometryEntry.leaf ?_)
    rw [Field.lowered_asSignedIdentifier, hlowered, Field.lowered_asSignedIdentifier]

section

variable {factor factor' : Building Operand}

/-- Complements agree if their operands do. -/
theorem complement (hfactor : Agree SamePlace factor factor') :
    Agree SamePlace (Production.complement factor) (Production.complement factor') := by
  refine (lift (opening "#")).bind fun _ _ _ ↦
    (lift Production.Agree.current?).bind fun o o' ho ↦ ?_
  rw [BlindToCase.any_eq (p := Production.startsOperand) (fun _ ↦ rfl) ho]
  split_ifs
  · refine hfactor.bind fun o o' ho ↦ (place ?_).bind fun _ _ hid ↦ .pure hid
    exact GeometryEntry.bare_complement _ _ ho
  · exact .unexpected _

/-- Groups agree if what they enclose does. -/
theorem group (hinner : Agree SamePlace factor factor') :
    Agree SamePlace (Production.group factor) (Production.group factor') := by
  refine (lift (opening "(")).bind fun _ _ _ ↦ hinner.bind fun o o' ho ↦ ?_
  refine (lift Production.Agree.currentKind?).bind fun k _ hk ↦ ?_
  subst hk
  split_ifs
  · exact (lift Production.Agree.advance).bind fun _ _ _ ↦
      operand (GeometryEntry.bare_group _ _ _ _ ho)
  · exact .unexpected _

/-- A run of surfaces is placed at one place in both geometries. -/
theorem surfaceRun (g : Grammar) (kind : ShorthandKind) {t u : Token} (htu : t.lowered = u.lowered)
    (before : Nat) : Agree SamePlace (Production.surfaceRun g kind t before)
      (Production.surfaceRun g kind u before) := by
  have htext := Token.text_alike htu
  have built {x y : Except ShorthandError Shorthand} (h : Shorthand.Agree x y) : Agree SamePlace
      (liftM (Production.orMalformed u.span x) >>= fun s ↦ (do
        let id ← Production.place (.run s)
        return (⟨id, ← Production.layout⟩ : Operand) : Building Operand))
      (liftM (Production.orMalformed u.span y) >>= fun s ↦ (do
        let id ← Production.place (.run s)
        return (⟨id, ← Production.layout⟩ : Operand) : Building Operand)) :=
    (lift (.orMalformed (fun _ _ ↦ id) h u.span)).bind fun s s' hs ↦
      operand (congrArg GeometryEntry.run hs)
  unfold Production.surfaceRun
  rw [Token.span_alike htu]
  refine (lift Production.Agree.advance).bind fun _ _ _ ↦ ?_
  split_ifs
  · exact .throw rfl
  refine get.bind fun tree tree' htree ↦ ?_
  have hlead : Lead.lowered (.chained (Production.edgeValue tree tree.size before)) =
      .lowered (.chained (Production.edgeValue tree' tree'.size before)) := by
    rw [Geometry.size_alike htree]
    exact congrArg Lead.chained (Production.edgeValue_alike htree _ _)
  rw [← Geometry.size_alike htree] at hlead ⊢
  cases kind with
  | copies => exact built (Shorthand.agree_copies htext hlead)
  | multiply => exact built (Shorthand.agree_multiply htext hlead)
  | jump | linear | logarithmic => exact .throw rfl

/-! ## Chains -/

/-- Both give no operand, or both give operands at the same place. -/
abbrev SameNext : Option Operand → Option Operand → Prop := Option.Rel SamePlace

/-- Both chains go on with factors at one place, or both end. -/
theorem nextFactor? (g : Grammar) (hfactor : Agree SamePlace factor factor') (before : Nat) :
    Agree SameNext (Production.nextFactor? g factor before)
      (Production.nextFactor? g factor' before) := by
  refine (lift Production.Agree.current?).bind fun o o' ho ↦ ?_
  obtain ⟨rfl, rfl⟩ | ⟨t, u, rfl, rfl, htu⟩ := Option.cases_of_map_eq ho
  · exact .pure .none
  have hnext : Agree SameNext (do return some (← factor)) (do return some (← factor')) :=
    hfactor.bind fun _ _ h ↦ .pure (.some h)
  dsimp only
  rw [Token.kind_alike htu]
  split
  · exact (surfaceRun g _ htu before).bind fun _ _ h ↦ .pure (.some h)
  · exact hnext
  · exact hnext
  · exact hnext
  · exact hnext
  · exact .pure .none

/-- Joining operands at one place gives an operand at one place. -/
theorem join (op : GeometryOp) {o o' a a' : Operand} (m m' : Layout) (ho : SamePlace o o')
    (ha : SamePlace a a') :
    Agree SamePlace (Production.join op o m a) (Production.join op o' m' a') :=
  have hentry : (GeometryEntry.branch (.binary op o.id m a.id)).lowered =
      (GeometryEntry.branch (.binary op o'.id m' a'.id)).lowered :=
      GeometryEntry.bare_binary m m' op ho ha
  (place hentry).bind fun _ _ hid ↦ .pure hid

/-- Chains agree if each of their links does. -/
theorem loopBuilding {round round' : Operand → Building (Option Operand)}
    (hround : ∀ o o', SamePlace o o' → Agree SameNext (round o) (round' o')) {o o' : Operand}
    (ho : SamePlace o o') :
    Agree SamePlace (Production.loopBuilding round o) (Production.loopBuilding round' o') := by
  intro g g' hg
  refine Production.Agree.loop (R := fun x y ↦ SamePlace x.1 y.1 ∧ x.2.lowered = y.2.lowered)
    (x := (o, g)) (y := (o', g')) ?_ ⟨ho, hg⟩
  rintro ⟨o, g⟩ ⟨o', g'⟩ ⟨ho, hg⟩
  refine (hround o o' ho hg).bind ?_
  rintro ⟨_, g₁⟩ ⟨_, g₁'⟩ ⟨hnext, hg₁⟩
  cases hnext with
  | none => exact .pure .none
  | some h => exact .pure (.some ⟨h, hg₁⟩)

/-- Intersections agree if their factors do. -/
theorem intersection (g : Grammar) (hfactor : Agree SamePlace factor factor') :
    Agree SamePlace (Production.intersection g factor) (Production.intersection g factor') := by
  refine hfactor.bind fun o o' ho ↦ loopBuilding (fun left left' hleft ↦ ?_) ho
  rw [show left.id = left'.id from hleft]
  refine (nextFactor? g hfactor _).bind fun next next' hnext ↦ ?_
  cases hnext with
  | none => exact .pure .none
  | some hright => exact (join _ _ _ hleft hright).bind fun _ _ h ↦ .pure (.some h)

/-- Unions agree if their factors do. -/
theorem union (g : Grammar) (hfactor : Agree SamePlace factor factor') :
    Agree SamePlace (Production.union g factor) (Production.union g factor') := by
  have hchain := intersection g hfactor
  refine hchain.bind fun o o' ho ↦ loopBuilding (fun left left' hleft ↦ ?_) ho
  refine (lift Production.Agree.currentKind?).bind fun k _ hk ↦ ?_
  subst hk
  split_ifs
  · refine (lift (colon _ _)).bind fun m m' _ ↦ hchain.bind fun right right' hright ↦ ?_
    exact (join _ m m' hleft hright).bind fun _ _ h ↦ .pure (.some h)
  · exact .pure .none

end

/-- Factors are read alike however deep they may be nested. -/
theorem factor (g : Grammar) (room : Nat) :
    Agree SamePlace (Production.factor g room) (Production.factor g room) := by
  induction room with
  | zero => exact lift .tooDeep
  | succ room ih =>
    intro tree tree' htree
    refine .nested ?_
    refine (lift Production.Agree.current?).bind (W := SamePlace) (fun o o' ho ↦ ?_) htree
    obtain ⟨rfl, rfl⟩ | ⟨t, u, rfl, rfl, htu⟩ := Option.cases_of_map_eq ho
    · exact .unexpected _
    dsimp only
    rw [Token.kind_alike htu]
    split
    · exact leaf htu
    · exact leaf htu
    · exact complement ih
    · exact group (union g ih)
    · exact .unexpected _

end Agree

end Building

/-- A geometry is built alike in either case: entry by entry, up to the case of letters. -/
theorem Production.Agree.geometry (g : Grammar) :
    Agree (fun tree tree' ↦ tree.lowered = tree'.lowered) (geometry g) (geometry g) := by
  unfold Production.geometry
  split_ifs
  · exact .unexpected _
  refine get.bind fun c d hcd ↦ ?_
  rw [hcd.depth]
  have hunion := Building.Agree.union g (Building.Agree.factor g (Limits.parseDepth - d.depth))
  refine (hunion (show Geometry.empty.lowered = Geometry.empty.lowered from rfl)).bind ?_
  rintro ⟨o, tree⟩ ⟨o', tree'⟩ ⟨ho, htree⟩
  refine .pure ?_
  simp only [Geometry.lowered, Geometry.setRoot, Geometry.setTrailing, Geometry.mk.injEq] at htree ⊢
  exact ⟨htree.1, ho, trivial⟩

/-! ## Regions -/

/-- The numbers of a run have no letters. -/
theorem Shorthand.numbers_lowered (s : Shorthand) : s.lowered.numbers = s.numbers := by
  change (s.members.map Field.lowered).filterMap Field.toInt? = s.members.filterMap Field.toInt?
  rw [List.filterMap_map]
  exact congrArg (List.filterMap · s.members) (funext Field.toInt?_lowered)

namespace Region

/-- The number of a leaf is the same in either case. -/
theorem leafNumber_lowered (f : Field) (id : Nat) : leafNumber f.lowered id = leafNumber f id := by
  rw [leafNumber, leafNumber, f.toInt?_lowered]

/-- A geometry is read as the same region in either case, to any depth. -/
theorem readEntry_lowered (g : Geometry) (fuel id : Nat) (nodes : Array RegionNode) :
    readEntry g.lowered fuel id nodes = readEntry g fuel id nodes := by
  induction fuel generalizing id nodes with
  | zero => rfl
  | succ fuel ih =>
    rw [readEntry, readEntry, g.entry?_lowered]
    rcases g.entry? id with _ | (f | s | b)
    · rfl
    · simp only [Option.map_some, GeometryEntry.lowered, leafNumber_lowered]
    · simp only [Option.map_some, GeometryEntry.lowered, s.numbers_lowered]
    · simp only [Option.map_some, GeometryEntry.lowered, GeometryEntry.bare, ih, g.entry?_lowered]
      rcases g.entry? b.left with _ | (f | s | b') <;>
        simp only [Option.map_none, Option.map_some, GeometryEntry.lowered,
          GeometryEntry.bare, leafNumber_lowered]

/-- The region of a geometry is that of the geometry in small letters. -/
theorem ofGeometry_lowered (g : Geometry) : ofGeometry g.lowered = ofGeometry g := by
  have hempty : g.lowered.isEmpty = g.isEmpty := by
    simp [Geometry.isEmpty, Geometry.lowered, Array.isEmpty]
  rw [ofGeometry, ofGeometry, hempty, g.size_lowered, readEntry_lowered]
  rfl

end Region

/-! ## Records in small letters -/

/-- The cell in small letters and without layout. -/
def CellRecord.lowered (c : CellRecord) : CellRecord :=
  { c with
    leading := none, number := c.number.lowered, material := c.material.lowered
    density := c.density.map Field.lowered, geometry := c.geometry.lowered, parameters :=
      c.parameters.lowered }

/-- The surface in small letters and without layout. -/
def SurfaceRecord.lowered (s : SurfaceRecord) : SurfaceRecord :=
  ⟨none, s.modifier.map Field.lowered, s.number.lowered, s.transform.map Field.lowered,
    s.type.lowered, s.constants.lowered⟩

def DataBody.lowered : DataBody → DataBody
  | values l => values l.lowered
  | nuclides ns => nuclides ns.lowered

/-- The data record in small letters and without layout. -/
def DataRecord.lowered (d : DataRecord) : DataRecord :=
  ⟨none, d.classifier.lowered, d.keyword.map Field.lowered, d.body.lowered, d.parameters.lowered⟩

/-- The request in small letters and without layout. -/
def ReadRecord.lowered (r : ReadRecord) : ReadRecord :=
  ⟨none, r.keyword.lowered, r.parameters.lowered⟩

def VerbatimRecord.lowered (v : VerbatimRecord) : VerbatimRecord :=
  { v with text := lowerString v.text }

namespace Record

def lowered : Record → Record
  | cell c => cell c.lowered
  | surface s => surface s.lowered
  | data d => data d.lowered
  | read r => read r.lowered
  | verbatim v => verbatim v.lowered

end Record

namespace Production.Agree

/-- Words are told from others in any letter case. -/
theorem blindToCase_spells (word : String) : BlindToCase (·.spells word) :=
  fun t ↦ t.spells_lowered word

/-! ## Cells -/

theorem refuseLike : Agree (fun _ _ ↦ True) refuseLike refuseLike := by
  refine current?.bind fun o o' ho ↦ ?_
  obtain ⟨hnone, hnone'⟩ | ⟨t, u, ht, hu, htu⟩ := (blindToCase_spells "like").filter_cases ho
  · rw [hnone, hnone']
    exact .pure trivial
  · rw [ht, hu]
    exact .throw (congrArg (SyntaxError.unsupported "LIKE n BUT") (Token.span_alike htu))

/-- A density is read alike in either case: it is there for both or for neither. -/
theorem density? {f f' : Field} (hf : f.lowered = f'.lowered) :
    Agree (fun o o' ↦ o.map Field.lowered = o'.map Field.lowered) (density? f) (density? f') := by
  unfold Production.density?
  rw [Field.toInt?_alike hf]
  split_ifs
  · exact .pure rfl
  · refine (value _ _).bind fun density density' hdensity ↦ .pure (congrArg some ?_)
    rw [Field.lowered_asSignedFraction, hdensity, Field.lowered_asSignedFraction]

/-- A cell is read alike in either case. -/
theorem cell (g : Grammar) : Agree (fun c c' ↦ c.lowered = c'.lowered) (cell g) (cell g) := by
  refine layout.bind fun _ _ _ ↦ (value _ _).bind fun number number' hnumber ↦
    refuseLike.bind fun _ _ _ ↦ ?_
  refine (value _ _).bind fun material material' hmaterial ↦ ?_
  refine (density? hmaterial).bind fun density density' hdensity ↦ ?_
  refine (geometry g).bind fun geometry geometry' hgeometry ↦ ?_
  refine (parameters g).bind fun parameters parameters' hparameters ↦
    finish.bind fun _ _ _ ↦ .pure ?_
  simp only [CellRecord.lowered, hnumber, hmaterial, hdensity, hgeometry, hparameters]

/-! ## Surfaces -/

/-- Whether a number has a mark is told by the kind of its token. -/
theorem blindToCase_isMarkedNumber : BlindToCase isMarkedNumber := fun t ↦ by
  have htext : t.lowered.text.toList = lower t.text.toList := toList_lowerString t.text
  have hplus (cs : List Char) : ((lower cs).head? == some '+') = (cs.head? == some '+') := by
    cases cs with
    | nil => rfl
    | cons c cs => exact caseBlind_beq (d := '+') (by decide) c
  rw [isMarkedNumber, isMarkedNumber, htext, hplus]
  rfl

/-- The mark and the number behind it are read alike in either case. -/
theorem markedNumber {t u : Token} (htu : t.lowered = u.lowered) :
    Agree (fun r r' ↦ r.1.lowered = r'.1.lowered ∧ r.2.lowered = r'.2.lowered) (markedNumber t)
      (markedNumber u) := by
  have htext := Token.text_alike htu
  have hdigits : lowerString (String.ofList (t.text.toList.drop 1)) =
      lowerString (String.ofList (u.text.toList.drop 1)) := by
    rw [lowerString_ofList, ← drop_lower, ← toList_lowerString, htext, toList_lowerString,
      drop_lower, lowerString_ofList]
  refine advance.bind fun _ _ _ ↦ layout.bind fun l l' _ ↦ ?_
  have hnumber : (Field.parse? (String.ofList (t.text.toList.drop 1)) .int l).map Field.lowered =
      (Field.parse? (String.ofList (u.text.toList.drop 1)) .int l').map Field.lowered := by
    rw [Field.lowered_parse?, hdigits, ← Field.lowered_parse?]
  obtain ⟨hnone, hnone'⟩ | ⟨f, f', hf, hf', hlowered⟩ := Option.cases_of_map_eq hnumber
  · rw [hnone, hnone', Token.span_alike htu]
    exact .throw (congrArg (SyntaxError.unexpectedToken "surface number" · u.span) htext)
  · rw [hf, hf']
    exact .pure ⟨rfl, hlowered⟩

theorem surfaceNumber :
    Agree (fun r r' ↦ r.1.map Field.lowered = r'.1.map Field.lowered ∧ r.2.lowered = r'.2.lowered)
    surfaceNumber surfaceNumber := by
  refine current?.bind fun o o' ho ↦ ?_
  obtain ⟨hnone, hnone'⟩ | ⟨t, u, ht, hu, htu⟩ := blindToCase_isMarkedNumber.filter_cases ho
  · rw [hnone, hnone']
    refine (word? blindToCase_isMark).bind fun mark mark' hmark ↦
      (value _ _).bind fun _ _ hnumber ↦ .pure ⟨?_, hnumber⟩
    have hpad (mark : Option Field) : (mark.map Field.neverPad).map Field.lowered =
        (mark.map Field.lowered).map Field.neverPad := by
      rw [Option.map_map, Option.map_map]
      rfl
    exact (hpad mark).trans ((congrArg _ hmark).trans (hpad mark').symm)
  · rw [ht, hu]
    exact (markedNumber htu).bind fun _ _ h ↦ .pure ⟨congrArg some h.1, h.2⟩

theorem transform? :
    Agree (fun o o' ↦ o.map Field.lowered = o'.map Field.lowered) transform? transform? := by
  refine currentKind?.bind fun k _ hk ↦ ?_
  subst hk
  split_ifs
  · exact (value _ _).bind fun _ _ h ↦ .pure (congrArg some h)
  · exact .pure rfl

/-- The type of a surface is a word, and is compared in lower case. -/
theorem surfaceType : Agree (fun f f' ↦ f.lowered = f'.lowered) surfaceType surfaceType := by
  refine currentKind?.bind fun k _ hk ↦ ?_
  subst hk
  split_ifs
  · exact value _ _
  · exact .unexpected _

/-- A surface is read alike in either case. -/
theorem surface (g : Grammar) :
    Agree (fun s s' ↦ s.lowered = s'.lowered) (surface g) (surface g) := by
  refine layout.bind fun _ _ _ ↦ surfaceNumber.bind fun number number' hnumber ↦ ?_
  refine transform?.bind fun transform transform' htransform ↦
    surfaceType.bind fun type type' htype ↦ ?_
  refine (values g _).bind fun constants constants' hconstants ↦ finish.bind fun _ _ _ ↦ .pure ?_
  simp only [SurfaceRecord.lowered, hnumber.1, hnumber.2, htransform, htype, hconstants]

/-! ## Data -/

theorem keyword? (g : Grammar) :
    Agree (fun o o' ↦ o.map Field.lowered = o'.map Field.lowered) (keyword? g) (keyword? g) := by
  refine currentKind?.bind fun k _ hk ↦ get.bind fun c d hcd ↦ ?_
  subst hk
  rw [parameterAhead_alike g hcd]
  split_ifs
  · exact (value _ _).bind fun _ _ h ↦ .pure (congrArg some h)
  · exact .pure rfl

/-- The word of a classifier decides, in either case, between a list and a material. -/
theorem body (g : Grammar) {c c' : Classifier} (hc : c.lowered = c'.lowered) :
    Agree (fun b b' ↦ b.lowered = b'.lowered) (body g c) (body g c') := by
  have hword : sameWord c.word "m" = sameWord c'.word "m" := by
    rw [← lowerString_sameWord, ← c.word_lowered, hc, c'.word_lowered, lowerString_sameWord]
  refine current?.bind fun o o' ho ↦ ?_
  rw [hword, BlindToCase.any_eq (p := startsNuclide) (fun _ ↦ rfl) ho]
  split_ifs
  · exact nuclides.bind fun _ _ h ↦ .pure (congrArg DataBody.nuclides h)
  · exact (values g _).bind fun _ _ h ↦ .pure (congrArg DataBody.values h)
  · exact .pure rfl

/-- A data record is read alike in either case. -/
theorem data (g : Grammar) : Agree (fun d d' ↦ d.lowered = d'.lowered) (data g) (data g) := by
  refine layout.bind fun _ _ _ ↦ (classifier g).bind fun c c' hc ↦
    (keyword? g).bind fun keyword keyword' hkeyword ↦ ?_
  refine (body g hc).bind fun body body' hbody ↦
    (parameters g).bind fun parameters parameters' hparameters ↦ ?_
  refine finish.bind fun _ _ _ ↦ .pure ?_
  simp only [DataRecord.lowered, hc, hkeyword, hbody, hparameters]

/-! ## Requests -/

theorem read (g : Grammar) : Agree (fun r r' ↦ r.lowered = r'.lowered) (read g) (read g) := by
  refine layout.bind fun _ _ _ ↦ current?.bind fun o o' ho ↦ ?_
  rw [(blindToCase_spells "read").any_eq ho]
  split_ifs
  · refine (value _ _).bind fun keyword keyword' hkeyword ↦ ?_
    refine (parameters g).bind fun parameters parameters' hparameters ↦
      finish.bind fun _ _ _ ↦ .pure ?_
    simp only [ReadRecord.lowered, hkeyword, hparameters]
  · exact .unexpected _

/-- A record is read alike in either case, whatever it is. -/
theorem record (g : Grammar) : Agree (fun r r' ↦ r.lowered = r'.lowered) (record g) (record g) := by
  unfold Production.record
  split
  · exact (cell g).bind fun _ _ h ↦ .pure (congrArg Record.cell h)
  · exact (surface g).bind fun _ _ h ↦ .pure (congrArg Record.surface h)
  · exact (data g).bind fun _ _ h ↦ .pure (congrArg Record.data h)
  · exact (read g).bind fun _ _ h ↦ .pure (congrArg Record.read h)

end Production.Agree

/-! ## Whole records -/

/-- The errors are the same ones at the same places. -/
def SyntaxError.SameList (es es' : List SyntaxError) : Prop :=
  es.map SyntaxError.lowered = es'.map SyntaxError.lowered

section

variable {ts us : List Token} (h : ts.map Token.lowered = us.map Token.lowered)
include h

/-- The cursors at the start of two lists of tokens agree if the tokens do. -/
theorem Cursor.alike_of : (Cursor.of (.of ts)).Alike (Cursor.of (.of us)) where
  rest := h
  endSpan := by
    have hspan (ts : List Token) : (TokenStream.of ts).endSpan =
        (ts.map Token.lowered).getLast?.elim (.point .start) fun t ↦ .point t.span.stop := by
      have htokens : (TokenStream.of ts).tokens = ts.toArray := rfl
      rw [TokenStream.endSpan, htokens, List.back?_toArray, List.getLast?_map]
      cases ts.getLast? <;> rfl
    change (TokenStream.of ts).endSpan = (TokenStream.of us).endSpan
    rw [hspan, h, ← hspan]
  depth := rfl
  errors := rfl

/-- Records are accepted alike in either case, and refused with the same errors. -/
theorem Cursor.agree_parse (g : Grammar) :
    Except.Agree SyntaxError.SameList (fun r r' ↦ r.lowered = r'.lowered)
      ((Cursor.of (.of ts)).parse g) ((Cursor.of (.of us)).parse g) := by
  have hlayout (ts : List Token) : ts.all Token.isLayout =
      (ts.map Token.lowered).all Token.isLayout := by
    rw [List.all_map]
    rfl
  have honly : (TokenStream.of ts).onlyLayoutLeft = (TokenStream.of us).onlyLayoutLeft := by
    rw [TokenStream.onlyLayoutLeft_eq_all, hlayout, h, ← hlayout, TokenStream.onlyLayoutLeft_eq_all]
  obtain ⟨hresult, halike⟩ := Production.Agree.record g (Cursor.alike_of h)
  unfold Cursor.parse
  rw [show (Cursor.of (.of ts)).stream = .of ts from rfl, show (Cursor.of (.of us)).stream =
    .of us from rfl, honly]
  split_ifs
  · exact .error rfl
  rcases hc : (Production.record g).run (Cursor.of (.of ts)) with ⟨x, c⟩
  rcases hd : (Production.record g).run (Cursor.of (.of us)) with ⟨y, d⟩
  rw [hc, hd] at hresult halike
  have hempty : c.errors.isEmpty = d.errors.isEmpty := by
    rw [← List.isEmpty_map, halike.errors, List.isEmpty_map]
  cases hresult with
  | ok hr =>
    dsimp only
    rw [hempty]
    split_ifs
    · exact .ok hr
    · exact .error halike.errors
  | error he => exact .error (halike.report he).errors

end

/-- Texts that are the same up to letter case have the same tokens up to letter case. -/
theorem agree_tokenize {text text' : String} (h : lowerString text = lowerString text')
    (mode : LexMode) :
    Except.Agree Eq (fun ts us ↦ ts.map Token.lowered = us.map Token.lowered) (tokenize mode text)
      (tokenize mode text') := by
  have htokens : (tokenize mode text).map (List.map Token.lowered) =
      (tokenize mode text').map (List.map Token.lowered) := by
    rw [← tokenize_lowerString, h, tokenize_lowerString]
  rcases ht : tokenize mode text with e | ts <;> rcases hu : tokenize mode text' with e' | us <;>
    rw [ht, hu] at htokens
  · cases htokens
    exact .error rfl
  · cases htokens
  · cases htokens
  · exact .ok (Except.ok.inj htokens)

/-- Texts that are the same up to letter case are accepted or refused alike. -/
theorem Grammar.agree_parse (g : Grammar) {text text' : String}
    (h : lowerString text = lowerString text') :
    Except.Agree SyntaxError.SameList (fun r r' ↦ r.lowered = r'.lowered)
      (g.parse text) (g.parse text') := by
  have htokens := agree_tokenize h g.mode
  unfold Grammar.parse
  generalize tokenize g.mode text = x at htokens ⊢
  generalize tokenize g.mode text' = y at htokens ⊢
  cases htokens with
  | ok hts => exact Cursor.agree_parse hts g
  | error he =>
    subst he
    exact .error rfl

end TransportDeck
