import TransportDeck.Grammar.Records
import TransportDeck.Proofs.Grammar.Progress

/-!
# The places of errors

Whatever goes wrong in the tokens of a record, the error points at one of the tokens or behind the
last one.  Each production keeps to this; there is one lemma for each.
-/

namespace TransportDeck

/-- The span of a token, or the empty span behind the last one. -/
def TokenStream.IsPlace (ts : List Token) (span : Span) : Prop :=
  (∃ t ∈ ts, t.span = span) ∨ (of ts).endSpan = span

open TokenStream (IsPlace)

/-- The error points at a token or behind the last one, if it points anywhere. -/
def SyntaxError.PointsInto (ts : List Token) (e : SyntaxError) : Prop :=
  ∀ span ∈ e.span?, IsPlace ts span

/-- A place in the tokens `ts`, and the errors reported before it point into them. -/
structure Cursor.PointsInto (ts : List Token) (c : Cursor) : Prop where
  tokens : c.stream.tokens = ts.toArray
  errors : ∀ e ∈ c.errors, e.PointsInto ts

/-! ## Cursors -/

/-- Stepping on does not touch the tokens of the stream, only the position in them. -/
theorem TokenStream.tokens_advance (s : TokenStream) : s.advance.tokens = s.tokens := by
  unfold advance
  split_ifs <;> rfl

/-- Passing over tokens does not touch them, either. -/
theorem TokenStream.tokens_takeWhile (p : Token → Bool) (s : TokenStream) :
    (s.takeWhile p).2.tokens = s.tokens := by
  induction hn : s.tokens.size - s.position using Nat.strong_induction_on generalizing s with
  | _ n ih =>
    rw [takeWhile]
    split
    · rfl
    · next t ht =>
      split_ifs
      · have hlt := lt_size_of_current? ht
        have hadvance : s.advance = { s with position := s.position + 1 } := if_pos hlt
        rw [← s.tokens_advance]
        refine ih _ ?_ s.advance rfl
        rw [hadvance]
        dsimp only
        omega
      · rfl

namespace Cursor.PointsInto

variable {ts : List Token} {c : Cursor} (h : c.PointsInto ts)
include h

/-- A current token is one of the tokens of the record. -/
theorem mem_of_current? : ∀ t ∈ c.stream.current?, t ∈ ts := fun t ht ↦ by
  have ht : c.stream.tokens[c.stream.position]? = some t := ht
  rw [h.tokens] at ht
  exact List.mem_toArray.mp (Array.mem_of_getElem? ht)

/-- The current span is a place: it is the span of a token, or the end of the last one. -/
theorem isPlace_currentSpan : IsPlace ts c.stream.currentSpan := by
  unfold TokenStream.currentSpan
  split
  · next t ht => exact .inl ⟨t, h.mem_of_current? t ht, rfl⟩
  · refine .inr ?_
    unfold TokenStream.endSpan
    rw [h.tokens]
    rfl

/-- A complaint about an unexpected token points at that token, or behind the last one. -/
theorem unexpected (expected : String) : (c.unexpected expected).PointsInto ts := by
  unfold Cursor.unexpected
  split
  · next t ht =>
    rintro _ ⟨⟩
    exact .inl ⟨t, h.mem_of_current? t ht, rfl⟩
  · rintro _ ⟨⟩
    exact h.isPlace_currentSpan

/-- An error that points into the record may be reported. -/
theorem report {e : SyntaxError} (he : e.PointsInto ts) : (c.report e).PointsInto ts where
  tokens := h.tokens
  errors := by
    intro e' he'
    unfold Cursor.report at he'
    rcases List.mem_append.mp he' with hkept | hnew
    · refine h.errors e' ?_
      split_ifs at hkept
      · exact List.mem_of_mem_drop hkept
      · exact hkept
    · rwa [List.mem_singleton.mp hnew]

theorem advance : ({ c with stream := c.stream.advance } : Cursor).PointsInto ts :=
  ⟨(c.stream.tokens_advance).trans h.tokens, h.errors⟩

theorem takeWhile (p : Token → Bool) :
    ({ c with stream := (c.stream.takeWhile p).2 } : Cursor).PointsInto ts :=
  ⟨(c.stream.tokens_takeWhile p).trans h.tokens, h.errors⟩

theorem withDepth (n : Nat) : ({ c with depth := n } : Cursor).PointsInto ts := ⟨h.tokens, h.errors⟩

end Cursor.PointsInto

/-! ## Productions -/

namespace Production

variable {α β σ : Type} {ts : List Token}

/-- The errors that are thrown and those that are reported point into the tokens. -/
def Points (ts : List Token) (p : Production α) : Prop :=
  ∀ c : Cursor, c.PointsInto ts → (∀ e, (p.run c).1 = .error e → e.PointsInto ts) ∧
    (p.run c).2.PointsInto ts

namespace Points

variable {p : Production α} {f : α → Production β} {span : Span} {t : Token}

theorem pure {a : α} : Points ts (pure a : Production α) := fun _ hc ↦ ⟨nofun, hc⟩

theorem throw {e : SyntaxError} (he : e.PointsInto ts) : Points ts (throw e : Production α) :=
  fun _ hc ↦ by
  refine ⟨?_, hc⟩
  rintro _ ⟨⟩
  exact he

/-- A run keeps to the places of the record if its two halves do. -/
theorem bind (hp : Points ts p) (hf : ∀ a, Points ts (f a)) : Points ts (p >>= f) := fun c hc ↦ by
  obtain ⟨herror, hc'⟩ := hp c hc
  rcases hrun : p.run c with ⟨e | a, c'⟩
  · rw [hrun] at herror hc'
    rw [run_bind_of_error hrun]
    refine ⟨?_, hc'⟩
    rintro _ ⟨⟩
    exact herror e rfl
  · rw [hrun] at hc'
    rw [run_bind_of_ok hrun]
    exact hf a c' hc'

theorem get_bind {f : Cursor → Production β}
    (hf : ∀ c : Cursor, c.PointsInto ts → Points ts (f c)) : Points ts (get >>= f) :=
  fun c hc ↦ hf c hc c hc

theorem current_bind {f : Option Token → Production β}
    (hf : ∀ o, (∀ t ∈ o, t ∈ ts) → Points ts (f o)) : Points ts (current? >>= f) :=
  fun c hc ↦ hf c.stream.current? hc.mem_of_current? c hc

theorem currentKind_bind {f : Option TokenKind → Production β} (hf : ∀ o, Points ts (f o)) :
    Points ts (currentKind? >>= f) := fun c hc ↦
  hf (c.stream.current?.map fun t : Token ↦ t.kind) c hc

theorem currentSpan_bind {f : Span → Production β}
    (hf : ∀ span, IsPlace ts span → Points ts (f span)) : Points ts (currentSpan >>= f) :=
  fun c hc ↦ hf c.stream.currentSpan hc.isPlace_currentSpan c hc

theorem advance : Points ts advance := fun _ hc ↦ ⟨nofun, hc.advance⟩

theorem takeWhile (p : Token → Bool) : Points ts (takeWhile p) := fun _ hc ↦ ⟨nofun, hc.takeWhile p⟩

theorem report {e : SyntaxError} (he : e.PointsInto ts) : Points ts (report e) :=
  fun _ hc ↦ ⟨nofun, hc.report he⟩

theorem unexpected (expected : String) : Points ts (unexpected expected : Production α) :=
  get_bind fun _ hc ↦ .throw (hc.unexpected expected)

theorem tooDeep : Points ts (tooDeep : Production α) := currentSpan_bind fun span hspan ↦ .throw (by
  rintro _ ⟨⟩
  exact hspan)

theorem layout : Points ts layout := (takeWhile _).bind fun _ ↦ pure

theorem finish : Points ts finish := layout.bind fun _ ↦ current_bind fun o _ ↦ by
  split_ifs
  · exact unexpected _
  · exact pure

theorem nested (hp : Points ts p) : Points ts (nested p) := fun c hc ↦ by
  by_cases hdeep : c.isTooDeep = true
  · rw [Production.nested, run_bind_of_error (run_enter_of_isTooDeep hdeep)]
    refine ⟨?_, hc⟩
    rintro _ ⟨⟩ _ ⟨⟩
    exact hc.isPlace_currentSpan
  · rw [Bool.not_eq_true] at hdeep
    obtain ⟨herror, hc'⟩ := hp { c with depth := c.depth + 1 } (hc.withDepth _)
    rcases hrun : p.run { c with depth := c.depth + 1 } with ⟨e | a, c'⟩
    · rw [hrun] at herror hc'
      rw [run_nested_of_error hdeep hrun]
      refine ⟨?_, hc'.withDepth _⟩
      rintro _ ⟨⟩
      exact herror e rfl
    · rw [hrun] at hc'
      rw [run_nested_of_ok hdeep hrun]
      refine ⟨?_, hc'.withDepth _⟩
      rintro _ ⟨⟩

/-- A bounded loop keeps to the places of the record if each of its rounds does. -/
theorem rounds {round : σ → Production (Option σ)} (hround : ∀ s, Points ts (round s)) (n : Nat)
    (s : σ) : Points ts (rounds round n s) := by
  induction n generalizing s with
  | zero => exact pure
  | succ n ih =>
    refine (hround s).bind fun o ↦ ?_
    cases o with
    | none => exact pure
    | some s' => exact ih s'

/-- The loop that runs until a round gives nothing keeps to the places of the record. -/
theorem loop {round : σ → Production (Option σ)} (hround : ∀ s, Points ts (round s)) (s : σ) :
    Points ts (loop round s) := get_bind fun _ _ ↦ rounds hround _ s

/-! ### Values and classifiers -/

theorem value (kind : ValueKind) (expected : String) : Points ts (value kind expected) := by
  refine current_bind fun o _ ↦ ?_
  split
  · exact unexpected _
  · split
    · exact unexpected _
    · exact advance.bind fun _ ↦ layout.bind fun _ ↦ pure

theorem word? (test : Token → Bool) : Points ts (word? test) := by
  refine current_bind fun o _ ↦ ?_
  split
  · exact advance.bind fun _ ↦ pure
  · exact pure

/-- A number in a name that does not convert is complained about at its token. -/
theorem nameNumber? : Points ts nameNumber? := by
  refine current_bind fun o _ ↦ ?_
  split
  · exact pure
  · split
    · exact advance.bind fun _ ↦ pure
    · exact pure

theorem particles? : Points ts particles? := by
  refine currentKind_bind fun k ↦ ?_
  split_ifs
  · refine currentSpan_bind fun span hspan ↦ advance.bind fun _ ↦ (takeWhile _).bind fun taken ↦ ?_
    dsimp only
    split
    · exact pure
    · refine .throw ?_
      rintro _ ⟨⟩
      exact hspan
  · exact pure

theorem classifier (g : Grammar) : Points ts (classifier g) := by
  unfold Production.classifier
  split_ifs
  · exact unexpected _
  · refine (word? _).bind fun modifier ↦ (word? _).bind fun name ↦ ?_
    split
    · exact unexpected _
    · exact nameNumber?.bind fun _ ↦ particles?.bind fun _ ↦ layout.bind fun _ ↦ pure

theorem startsParameter (g : Grammar) : Points ts (startsParameter g) := get_bind fun _ _ ↦ pure

/-! ### Lists -/

/-- An error of a run of shorthands gets the span of the shorthand. -/
theorem orMalformed (hspan : IsPlace ts span) (x : Except ShorthandError α) :
    Points ts (orMalformed span x) := by
  cases x with
  | ok a => exact pure
  | error e =>
    refine .throw ?_
    rintro _ ⟨⟩
    exact hspan

/-- What leads a run is taken from the list, or complained about at the place of the run. -/
theorem leadOf (kind : ShorthandKind) (hspan : IsPlace ts span) (l : FieldList) :
    Points ts (leadOf kind span l) := by
  unfold Production.leadOf
  split_ifs
  · exact pure
  · split
    · exact pure
    · refine .throw ?_
      rintro _ ⟨⟩
      exact hspan

/-- A run of shorthands complains about its own token, or about what stands behind it. -/
theorem shorthand (g : Grammar) (kind : ShorthandKind) (ht : t ∈ ts) (l : FieldList) :
    Points ts (shorthand g kind t l) := by
  have hspan : IsPlace ts t.span := .inl ⟨t, ht, rfl⟩
  have made (m : FieldList) (x : Except ShorthandError Shorthand) :
      Points ts (do return m.pushRun (← Production.orMalformed t.span x)) :=
      (orMalformed hspan x).bind fun _ ↦ pure
  unfold Production.shorthand
  split_ifs
  · refine .throw ?_
    rintro _ ⟨⟩
    exact hspan
  · cases kind with
    | jump => exact layout.bind fun _ ↦ made _ _
    | copies | multiply => exact (leadOf _ hspan _).bind fun _ ↦ layout.bind fun _ ↦ made _ _
    | linear | logarithmic =>
      exact (leadOf _ hspan _).bind fun _ ↦ layout.bind fun _ ↦ (value _ _).bind fun _ ↦ made _ _

theorem item? (g : Grammar) (preferred : ValueKind) (l : FieldList) :
    Points ts (item? g preferred l) := by
  refine current_bind fun o ho ↦ ?_
  split
  · exact pure
  · next t =>
    split
    · exact (value _ _).bind fun _ ↦ pure
    · exact (value _ _).bind fun _ ↦ pure
    · exact advance.bind fun _ ↦ (shorthand g _ (ho t rfl) l).bind fun _ ↦ pure
    · refine (startsParameter g).bind fun b ↦ ?_
      split_ifs
      · exact pure
      · exact (value _ _).bind fun _ ↦ pure
      · exact pure

/-- A list of values complains about the items in it only. -/
theorem values (g : Grammar) (preferred : ValueKind) : Points ts (values g preferred) :=
  (loop (item? g preferred) _).bind fun _ ↦ pure

theorem nuclides : Points ts nuclides := by
  refine (loop (fun ns ↦ current_bind fun o _ ↦ ?_) _).bind fun ns ↦ ?_
  · split_ifs
    · exact (value _ _).bind fun _ ↦ (value _ _).bind fun _ ↦ pure
    · exact pure
  · split_ifs
    · exact unexpected _
    · exact pure

/-! ### Parameters -/

theorem separator? (g : Grammar) : Points ts (separator? g) := by
  refine currentKind_bind fun _ ↦ ?_
  split_ifs
  · exact advance.bind fun _ ↦ layout.bind fun _ ↦ pure
  · exact unexpected _
  · exact pure

theorem parameter (g : Grammar) : Points ts (parameter g) := by
  refine (classifier g).bind fun _ ↦ (separator? g).bind fun _ ↦ (values g .int).bind fun _ ↦ ?_
  split_ifs
  · exact unexpected _
  · exact pure

/-- A parameter that is given twice is complained about where it stands. -/
theorem parameter? (g : Grammar) (ps : Parameters) : Points ts (parameter? g ps) := by
  refine (startsParameter g).bind fun b ↦ ?_
  split_ifs
  · refine currentSpan_bind fun span hspan ↦ (parameter g).bind fun p ↦ ?_
    split
    · exact pure
    · refine (report ?_).bind fun _ ↦ pure
      rintro _ ⟨⟩
      exact hspan
  · exact pure

theorem parameters (g : Grammar) : Points ts (parameters g) := by
  unfold Production.parameters
  split_ifs
  · exact loop (parameter? g) _
  · exact pure

end Points

end Production

/-! ## Geometries -/

namespace Building

variable {α β : Type} {ts : List Token}

/-- The errors point into the tokens, whatever geometry there is. -/
def Points (ts : List Token) (b : Building α) : Prop := ∀ g, Production.Points ts (b g)

namespace Points

variable {b : Building α} {f : α → Building β} {p : Production α}
  {operand : Building Operand} {t : Token}

theorem pure {a : α} : Points ts (pure a : Building α) := fun _ ↦ .pure

theorem throw {e : SyntaxError} (he : e.PointsInto ts) : Points ts (throw e : Building α) := fun _ ↦
  Production.Points.throw he

/-- A run of the builder keeps to the places of the record if its two halves do. -/
theorem bind (hb : Points ts b) (hf : ∀ a, Points ts (f a)) : Points ts (b >>= f) :=
  fun g ↦ Production.Points.bind (hb g) fun r ↦ hf r.1 r.2

/-- A production keeps to the places inside the builder of a geometry, too. -/
theorem lift (hp : Production.Points ts p) : Points ts (liftM p) :=
  fun _ ↦ Production.Points.bind hp fun _ ↦ .pure

theorem get : Points ts (get : Building Geometry) := fun _ ↦ .pure

theorem current_bind {f : Option Token → Building β}
    (hf : ∀ o, (∀ t ∈ o, t ∈ ts) → Points ts (f o)) : Points ts (liftM Production.current? >>= f) :=
  fun g c hc ↦ hf c.stream.current? hc.mem_of_current? g c hc

theorem currentKind : Points ts (liftM Production.currentKind?) := lift fun _ hc ↦ ⟨nofun, hc⟩

theorem place {e : GeometryEntry} : Points ts (Production.place e) := fun _ ↦ .pure

theorem join {op : GeometryOp} {left right : Operand} {mark : Layout} :
    Points ts (Production.join op left mark right) := place.bind fun _ ↦ pure

theorem opening (mark : String) : Points ts (liftM (Production.opening mark)) :=
  lift (Production.Points.advance.bind fun _ ↦ Production.Points.layout.bind fun _ ↦ .pure)

theorem loopBuilding {round : Operand → Building (Option Operand)}
    (hround : ∀ o, Points ts (round o)) (o : Operand) :
    Points ts (Production.loopBuilding round o) := by
  intro g
  exact Production.Points.loop (fun r ↦ Production.Points.bind (hround r.1 r.2) fun _ ↦ .pure)
    (o, g)

theorem behind (id : Nat) :
    Points ts (do return (⟨id, ← Production.layout⟩ : Operand) : Building Operand) :=
  (lift Production.Points.layout).bind fun _ ↦ pure

/-- A surface or cell number in a geometry complains about its own token. -/
theorem leaf (ht : t ∈ ts) : Points ts (Production.leaf t) := by
  unfold Production.leaf
  split
  · refine throw ?_
    rintro _ ⟨⟩
    exact .inl ⟨t, ht, rfl⟩
  · exact (lift .advance).bind fun _ ↦ place.bind fun id ↦ behind id

/-- A complement complains about its operand only. -/
theorem complement (hoperand : Points ts operand) : Points ts (Production.complement operand) := by
  refine (opening "#").bind fun _ ↦ current_bind fun o _ ↦ ?_
  split_ifs
  · exact hoperand.bind fun _ ↦ place.bind fun _ ↦ pure
  · exact lift (.unexpected _)

/-- A group complains about its operand, or about a parenthesis that is not closed. -/
theorem group (hoperand : Points ts operand) : Points ts (Production.group operand) := by
  refine (opening "(").bind fun _ ↦ hoperand.bind fun _ ↦ currentKind.bind fun k ↦ ?_
  split_ifs
  · exact (lift .advance).bind fun _ ↦ place.bind fun id ↦ behind id
  · exact lift (.unexpected _)

/-- A run of surfaces complains about its own token, or about what leads it. -/
theorem surfaceRun (gr : Grammar) (kind : ShorthandKind) (ht : t ∈ ts) (before : Nat) :
    Points ts (Production.surfaceRun gr kind t before) := by
  have hspan : IsPlace ts t.span := .inl ⟨t, ht, rfl⟩
  have built (x : Except ShorthandError Shorthand) :
      Points ts (liftM (Production.orMalformed t.span x) >>= fun s ↦ (do
        let id ← Production.place (.run s)
        return (⟨id, ← Production.layout⟩ : Operand) : Building Operand)) :=
    (lift (.orMalformed hspan x)).bind fun _ ↦ place.bind fun id ↦ behind id
  have hviolation (message : String) : (SyntaxError.violation message t.span).PointsInto ts := by
    rintro _ ⟨⟩
    exact hspan
  refine (lift .advance).bind fun _ ↦ ?_
  split_ifs
  · exact throw (hviolation _)
  · refine get.bind fun tree ↦ ?_
    dsimp only
    split
    · exact built _
    · exact built _
    · exact (throw (hviolation _)).bind fun _ ↦ place.bind fun id ↦ behind id

/-- The next factor of an intersection complains where it starts. -/
theorem nextFactor? (gr : Grammar) (hoperand : Points ts operand) (before : Nat) :
    Points ts (Production.nextFactor? gr operand before) := by
  refine current_bind fun o ho ↦ ?_
  split
  · exact pure
  · next t =>
    split
    · exact (surfaceRun gr _ (ho t rfl) before).bind fun _ ↦ pure
    · exact hoperand.bind fun _ ↦ pure
    · exact hoperand.bind fun _ ↦ pure
    · exact hoperand.bind fun _ ↦ pure
    · exact hoperand.bind fun _ ↦ pure
    · exact pure

theorem intersection (gr : Grammar) (hoperand : Points ts operand) :
    Points ts (Production.intersection gr operand) := by
  refine hoperand.bind fun o ↦ loopBuilding (fun left ↦ ?_) o
  refine (nextFactor? gr hoperand left.id).bind fun r ↦ ?_
  cases r with
  | some right => exact join.bind fun _ ↦ pure
  | none => exact pure

theorem union (gr : Grammar) (hoperand : Points ts operand) :
    Points ts (Production.union gr operand) := by
  have hcolon (l : Option Layout) : Production.Points ts (Production.colon l) :=
    .bind .advance fun _ ↦ .bind .layout fun _ ↦ .pure
  refine (intersection gr hoperand).bind fun o ↦ loopBuilding (fun left ↦ ?_) o
  refine currentKind.bind fun k ↦ ?_
  split_ifs
  · exact (lift (hcolon _)).bind fun _ ↦
      (intersection gr hoperand).bind fun _ ↦ join.bind fun _ ↦ pure
  · exact pure

/-- The factors of a geometry are nested up to a limit; what lies deeper is complained about where
it starts. -/
theorem factor (gr : Grammar) (room : Nat) : Points ts (Production.factor gr room) := by
  induction room with
  | zero => exact fun _ ↦ (lift .tooDeep : Points ts (liftM (Production.tooDeep (α := Operand)))) _
  | succ room ih =>
    intro g
    refine Production.Points.nested ?_
    refine (current_bind fun o ho ↦ ?_ : Points (α := Operand) ts _) g
    split
    · exact lift (.unexpected _)
    · next t =>
      split
      · exact leaf (ho t rfl)
      · exact leaf (ho t rfl)
      · exact complement ih
      · exact group (union gr ih)
      · exact lift (.unexpected _)

end Points

end Building

/-! ## Records -/

namespace Production.Points

variable {ts : List Token} {t : Token}

/-- A geometry complains about its tokens, or about the end of the record. -/
theorem geometry (g : Grammar) : Points ts (geometry g) := by
  unfold Production.geometry
  split_ifs
  · exact unexpected _
  · exact get_bind fun c _ ↦
      bind (Building.Points.union g (Building.Points.factor g _) .empty) fun _ ↦ pure

/-- A `like` that is not supported is complained about at its word. -/
theorem refuseLike : Points ts refuseLike := by
  refine current_bind fun o ho ↦ ?_
  split
  · next t ht =>
    have hmem : t ∈ ts := ho t (Option.filter_eq_some_iff.mp ht).1
    refine .throw ?_
    rintro _ ⟨⟩
    exact .inl ⟨t, hmem, rfl⟩
  · exact pure

theorem density? (material : Field) : Points ts (density? material) := by
  unfold Production.density?
  split_ifs
  · exact pure
  · exact (value _ _).bind fun _ ↦ pure

/-- A cell complains about its own tokens. -/
theorem cell (g : Grammar) : Points ts (cell g) :=
  layout.bind fun _ ↦ (value _ _).bind fun _ ↦ refuseLike.bind fun _ ↦ (value _ _).bind fun _ ↦
    (density? _).bind fun _ ↦ (geometry g).bind fun _ ↦
      (parameters g).bind fun _ ↦ finish.bind fun _ ↦ pure

/-- A number behind a mark is complained about at its own token. -/
theorem markedNumber (ht : t ∈ ts) : Points ts (markedNumber t) := by
  refine advance.bind fun _ ↦ layout.bind fun _ ↦ ?_
  split
  · exact pure
  · refine .throw ?_
    rintro _ ⟨⟩
    exact .inl ⟨t, ht, rfl⟩

theorem surfaceNumber : Points ts surfaceNumber := by
  refine current_bind fun o ho ↦ ?_
  split
  · next t ht => exact (markedNumber (ho t (Option.filter_eq_some_iff.mp ht).1)).bind fun _ ↦ pure
  · exact (word? _).bind fun _ ↦ (value _ _).bind fun _ ↦ pure

theorem transform? : Points ts transform? := by
  refine currentKind_bind fun _ ↦ ?_
  split_ifs
  · exact (value _ _).bind fun _ ↦ pure
  · exact pure

theorem surfaceType : Points ts surfaceType := by
  refine currentKind_bind fun _ ↦ ?_
  split_ifs
  · exact value _ _
  · exact unexpected _

/-- A surface complains about its own tokens. -/
theorem surface (g : Grammar) : Points ts (surface g) :=
  layout.bind fun _ ↦ surfaceNumber.bind fun _ ↦ transform?.bind fun _ ↦ surfaceType.bind fun _ ↦
    (values g _).bind fun _ ↦ finish.bind fun _ ↦ pure

theorem keyword? (g : Grammar) : Points ts (keyword? g) := by
  refine currentKind_bind fun _ ↦ get_bind fun _ _ ↦ ?_
  split_ifs
  · exact (value _ _).bind fun _ ↦ pure
  · exact pure

/-- The body of a data record is a list or a material, and both keep to their tokens. -/
theorem body (g : Grammar) (c : Classifier) : Points ts (body g c) := by
  refine current_bind fun _ _ ↦ ?_
  split_ifs
  · exact nuclides.bind fun _ ↦ pure
  · exact (values g _).bind fun _ ↦ pure
  · exact pure

theorem data (g : Grammar) : Points ts (data g) :=
  layout.bind fun _ ↦ (classifier g).bind fun c ↦ (keyword? g).bind fun _ ↦ (body g c).bind fun _ ↦
    (parameters g).bind fun _ ↦ finish.bind fun _ ↦ pure

/-- A request for another file complains about its own tokens. -/
theorem read (g : Grammar) : Points ts (read g) := by
  refine layout.bind fun _ ↦ current_bind fun _ _ ↦ ?_
  split_ifs
  · exact (value _ _).bind fun _ ↦ (parameters g).bind fun _ ↦ finish.bind fun _ ↦ pure
  · exact unexpected _

/-- Whatever a record is read as, its errors point into its tokens. -/
theorem record (g : Grammar) : Points ts (record g) := by
  unfold Production.record
  split
  · exact (cell g).bind fun _ ↦ pure
  · exact (surface g).bind fun _ ↦ pure
  · exact (data g).bind fun _ ↦ pure
  · exact (read g).bind fun _ ↦ pure

end Production.Points

/-- All errors of a record that cannot be read point into its tokens, and there is one. -/
theorem Cursor.pointsInto_of_parse {g : Grammar} {ts : List Token} {errors : List SyntaxError}
    (h : (Cursor.of (.of ts)).parse g = .error errors) :
    errors ≠ [] ∧ ∀ e ∈ errors, e.PointsInto ts := by
  have hstart : (Cursor.of (.of ts)).PointsInto ts := ⟨rfl, by simp [Cursor.of]⟩
  have hpoints : Production.Points ts (Production.record g) := .record g
  obtain ⟨hthrown, hreported⟩ := hpoints _ hstart
  unfold Cursor.parse at h
  split_ifs at h
  · obtain rfl := Except.error.inj h
    refine ⟨List.cons_ne_nil _ _, fun e he ↦ ?_⟩
    rw [List.mem_singleton.mp he]
    rintro _ ⟨⟩
  · split at h
    · next r c hrun =>
      split_ifs at h with hnone
      obtain rfl := Except.error.inj h
      rw [hrun] at hreported
      exact ⟨by simpa using hnone, hreported.errors⟩
    · next e c hrun =>
      obtain rfl := Except.error.inj h
      rw [hrun] at hthrown hreported
      refine ⟨?_, (hreported.report (hthrown e rfl)).errors⟩
      simp [Cursor.report]

end TransportDeck
