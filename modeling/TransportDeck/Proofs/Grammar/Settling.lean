import TransportDeck.Proofs.Grammar.Geometry

/-!
# Where productions stop

A phrase takes the layout behind it along.  Nothing of the layout at the end of a record is
therefore left to be passed over.
-/

namespace TransportDeck

/-- No layout stands next. -/
def Cursor.IsSettled (c : Cursor) : Prop := ∀ t ∈ c.rest.head?, t.isLayout = false

namespace Production

variable {α β σ : Type}

/-- A run that succeeds stops before a token that is no layout. -/
def Settles (p : Production α) : Prop := ∀ c a c', p.run c = (.ok a, c') → c'.IsSettled

/-- A run that succeeds stops so if it starts so. -/
def Keeps (p : Production α) : Prop :=
  ∀ c a c', c.IsSettled → p.run c = (.ok a, c') → c'.IsSettled

variable {p : Production α} {f : α → Production β}

/-- What settles by itself keeps the place settled. -/
theorem Settles.keeps (h : Settles p) : Keeps p := fun c a c' _ ↦ h c a c'

/-- A run that settles and then keeps to that settles. -/
theorem Settles.bind (hp : Settles p) (hf : ∀ a, Keeps (f a)) : Settles (p >>= f) := by
  intro c b c'' hrun
  obtain ⟨a, c', hp', hf'⟩ := run_bind_ok hrun
  exact hf a c' b c'' (hp c a c' hp') hf'

/-- A run settles if its last part does. -/
theorem Settles.of_bind (hf : ∀ a, Settles (f a)) : Settles (p >>= f) := by
  intro c b c'' hrun
  obtain ⟨a, c', -, hf'⟩ := run_bind_ok hrun
  exact hf a c' b c'' hf'

theorem Settles.throw {e : SyntaxError} : Settles (throw e : Production α) := by
  rintro c a c' ⟨⟩

theorem Settles.unexpected {expected : String} : Settles (unexpected expected : Production α) := by
  rintro c a c' ⟨⟩

/-- One more level of nesting changes the depth of the cursor only. -/
theorem Settles.nested (hp : Settles p) : Settles (nested p) := by
  intro c a c' hrun
  obtain ⟨c'', hp', rfl⟩ := run_nested_ok hrun
  exact hp _ a c'' hp'

namespace Keeps

/-- What consists of two parts that keep the place settled keeps it settled. -/
theorem bind (hp : Keeps p) (hf : ∀ a, Keeps (f a)) : Keeps (p >>= f) := by
  intro c b c'' hc hrun
  obtain ⟨a, c', hp', hf'⟩ := run_bind_ok hrun
  exact hf a c' b c'' (hp c a c' hc hp') hf'

theorem pure {a : α} : Keeps (pure a : Production α) := by
  rintro c _ _ hc ⟨⟩
  exact hc

theorem get : Keeps get := by
  rintro c _ _ hc ⟨⟩
  exact hc

theorem current? : Keeps current? := get.bind fun _ ↦ pure

theorem currentKind? : Keeps currentKind? := current?.bind fun _ ↦ pure

theorem report {e : SyntaxError} : Keeps (report e) := by
  rintro c _ _ hc ⟨⟩
  exact hc

/-- The rounds of a bounded loop keep the place settled if each of them does. -/
theorem rounds {round : σ → Production (Option σ)} (hround : ∀ s, Keeps (round s)) (n : Nat)
    (s : σ) : Keeps (rounds round n s) := by
  induction n generalizing s with
  | zero => exact pure
  | succ n ih =>
    refine (hround s).bind fun o ↦ ?_
    cases o with
    | none => exact pure
    | some s' => exact ih s'

/-- A loop keeps the place settled if each of its rounds does. -/
theorem loop {round : σ → Production (Option σ)} (hround : ∀ s, Keeps (round s)) (s : σ) :
    Keeps (loop round s) :=
  get.bind fun _ ↦ rounds hround _ s

end Keeps

/-! ## Phrases -/

/-- Layout is passed over to its end. -/
theorem settles_layout : Settles layout := by
  refine .bind ?_ fun _ ↦ .pure
  rintro c _ _ ⟨⟩ t ht
  exact c.stream.current?_takeWhile Token.isLayout t ht

/-- A value takes the layout behind it along. -/
theorem settles_value (kind : ValueKind) (expected : String) : Settles (value kind expected) := by
  refine .of_bind fun o ↦ ?_
  split
  · exact .unexpected
  · split
    · exact .unexpected
    · exact .of_bind fun _ ↦ settles_layout.bind fun _ ↦ .pure

/-- A classifier takes the layout behind it along. -/
theorem settles_classifier (g : Grammar) : Settles (classifier g) := by
  unfold classifier
  split_ifs
  · exact .unexpected
  refine .of_bind fun _ ↦ .of_bind fun name ↦ ?_
  cases name with
  | none => exact .unexpected
  | some name => exact .of_bind fun _ ↦ .of_bind fun _ ↦ settles_layout.bind fun _ ↦ .pure

theorem keeps_orMalformed {span : Span} {e : Except ShorthandError α} :
    Keeps (orMalformed span e) := by
  cases e with
  | ok a => exact .pure
  | error e => exact Settles.throw.keeps

/-- A run of shorthands takes the layout behind it along. -/
theorem settles_shorthand (g : Grammar) (kind : ShorthandKind) (t : Token) (l : FieldList) :
    Settles (shorthand g kind t l) := by
  unfold shorthand
  split_ifs
  · exact .throw
  cases kind with
  | jump => exact settles_layout.bind fun _ ↦ keeps_orMalformed.bind fun _ ↦ .pure
  | copies | multiply =>
    exact .of_bind fun _ ↦ settles_layout.bind fun _ ↦ keeps_orMalformed.bind fun _ ↦ .pure
  | linear | logarithmic =>
    exact .of_bind fun _ ↦ .of_bind fun _ ↦ (settles_value _ _).bind fun _ ↦
      keeps_orMalformed.bind fun _ ↦ .pure

/-- Without an item nothing is read, and an item takes the layout behind it along. -/
theorem keeps_item? (g : Grammar) (preferred : ValueKind) (l : FieldList) :
    Keeps (item? g preferred l) := by
  refine Keeps.current?.bind fun o ↦ ?_
  split
  · exact .pure
  · split
    · exact (settles_value _ _).keeps.bind fun _ ↦ .pure
    · exact (settles_value _ _).keeps.bind fun _ ↦ .pure
    · exact Settles.keeps (.of_bind fun _ ↦ (settles_shorthand g _ _ l).bind fun _ ↦ .pure)
    · refine (Keeps.get.bind fun _ ↦ .pure).bind fun _ ↦ ?_
      split_ifs
      · exact .pure
      · exact (settles_value _ _).keeps.bind fun _ ↦ .pure
      · exact .pure

/-- A list of values may be empty, and then the place stays what it was. -/
theorem keeps_values (g : Grammar) (preferred : ValueKind) : Keeps (values g preferred) :=
  (Keeps.loop (keeps_item? g preferred) _).bind fun _ ↦ .pure

theorem keeps_nuclides : Keeps nuclides := by
  refine (Keeps.loop (fun ns ↦ ?_) _).bind fun ns ↦ ?_
  · refine Keeps.current?.bind fun o ↦ ?_
    split_ifs
    · exact (settles_value _ _).keeps.bind fun _ ↦ (settles_value _ _).keeps.bind fun _ ↦ .pure
    · exact .pure
  · split_ifs
    · exact Settles.unexpected.keeps
    · exact .pure

/-- A separator takes its layout along, if there is one. -/
theorem keeps_separator? (g : Grammar) : Keeps (separator? g) := by
  refine Keeps.currentKind?.bind fun k ↦ ?_
  split_ifs
  · exact Settles.keeps (.of_bind fun _ ↦ settles_layout.bind fun _ ↦ .pure)
  · exact Settles.unexpected.keeps
  · exact .pure

theorem keeps_parameters (g : Grammar) : Keeps (parameters g) := by
  unfold parameters
  split_ifs
  · refine .loop (fun ps ↦ (Keeps.get.bind fun _ ↦ .pure).bind fun _ ↦ ?_) _
    split_ifs
    · refine (Keeps.get.bind fun _ ↦ .pure).bind fun _ ↦ Keeps.bind ?_ fun p ↦ ?_
      · refine (settles_classifier g).keeps.bind fun _ ↦ (keeps_separator? g).bind fun _ ↦
          (keeps_values g .int).bind fun _ ↦ ?_
        split_ifs
        · exact Settles.unexpected.keeps
        · exact .pure
      · split
        · exact .pure
        · exact Keeps.report.bind fun _ ↦ .pure
    · exact .pure
  · exact .pure

end Production

/-! ## Geometries -/

namespace Building

variable {α β : Type} {b : Building α} {f : α → Building β} {p : Production α}

def Settles (b : Building α) : Prop := ∀ g, Production.Settles (b g)

def Keeps (b : Building α) : Prop := ∀ g, Production.Keeps (b g)

/-- What settles by itself keeps the place settled, also while a geometry is built. -/
theorem Settles.keeps (h : Settles b) : Keeps b := fun g ↦ (h g).keeps

/-- What settles and then keeps to that settles, also while a geometry is built. -/
theorem Settles.bind (hb : Settles b) (hf : ∀ a, Keeps (f a)) : Settles (b >>= f) :=
  fun g ↦ Production.Settles.bind (hb g) fun r ↦ hf r.1 r.2

theorem Settles.of_bind (hf : ∀ a, Settles (f a)) : Settles (b >>= f) :=
  fun _ ↦ Production.Settles.of_bind fun r ↦ hf r.1 r.2

theorem Settles.lift (hp : Production.Settles p) : Settles (liftM p) :=
  fun _ ↦ Production.Settles.bind hp fun _ ↦ .pure

theorem Settles.throw {e : SyntaxError} : Settles (throw e : Building α) := by
  rintro g c a c' ⟨⟩

theorem Settles.unexpected {expected : String} :
    Settles (liftM (Production.unexpected expected : Production α)) :=
  .lift .unexpected

theorem Keeps.bind (hb : Keeps b) (hf : ∀ a, Keeps (f a)) : Keeps (b >>= f) :=
  fun g ↦ Production.Keeps.bind (hb g) fun r ↦ hf r.1 r.2

theorem Keeps.pure {a : α} : Keeps (pure a : Building α) := fun _ ↦ Production.Keeps.pure

/-- A production keeps the place settled inside the builder of a geometry, too. -/
theorem Keeps.lift (hp : Production.Keeps p) : Keeps (liftM p) :=
  fun _ ↦ Production.Keeps.bind hp fun _ ↦ .pure

theorem Keeps.place {e : GeometryEntry} : Keeps (Production.place e) :=
  fun _ ↦ Production.Keeps.pure

theorem Keeps.join {op : GeometryOp} {left right : Operand} {mark : Layout} :
    Keeps (Production.join op left mark right) :=
  Keeps.place.bind fun _ ↦ .pure

/-- A loop over operands keeps the place settled if each of its rounds does. -/
theorem Keeps.loopBuilding {round : Operand → Building (Option Operand)}
    (hround : ∀ o, Keeps (round o)) (o : Operand) : Keeps (Production.loopBuilding round o) := by
  intro g
  exact Production.Keeps.loop (fun r ↦ Production.Keeps.bind (hround r.1 r.2) fun _ ↦ .pure) (o, g)

/-! ### Operands -/

variable {factor : Building Operand}

/-- The layout behind an operand goes with the operand. -/
theorem settles_behind (id : Nat) :
    Settles (do return (⟨id, ← Production.layout⟩ : Operand) : Building Operand) :=
  (Settles.lift Production.settles_layout).bind fun _ ↦ .pure

/-- A number in a geometry takes the layout behind it along. -/
theorem settles_leaf (t : Token) : Settles (Production.leaf t) := by
  unfold Production.leaf
  split
  · exact .throw
  · exact .of_bind fun _ ↦ .of_bind fun id ↦ settles_behind id

theorem settles_complement (hfactor : Settles factor) : Settles (Production.complement factor) := by
  refine .of_bind fun _ ↦ .of_bind fun o ↦ ?_
  split_ifs
  · exact hfactor.bind fun _ ↦ Keeps.place.bind fun _ ↦ .pure
  · exact .unexpected

/-- The closing parenthesis takes the layout behind it along, whatever is inside. -/
theorem settles_group (inner : Building Operand) : Settles (Production.group inner) := by
  refine .of_bind fun _ ↦ .of_bind fun _ ↦ .of_bind fun k ↦ ?_
  split_ifs
  · exact .of_bind fun _ ↦ .of_bind fun id ↦ settles_behind id
  · exact .unexpected

theorem settles_surfaceRun (gr : Grammar) (kind : ShorthandKind) (t : Token) (before : Nat) :
    Settles (Production.surfaceRun gr kind t before) := by
  refine .of_bind fun _ ↦ ?_
  split_ifs
  · exact .throw
  · refine .of_bind fun tree ↦ ?_
    dsimp only
    split
    · exact .of_bind fun _ ↦ .of_bind fun id ↦ settles_behind id
    · exact .of_bind fun _ ↦ .of_bind fun id ↦ settles_behind id
    · exact Settles.throw.bind fun _ ↦ (Settles.of_bind fun id ↦ settles_behind id).keeps

/-- Without a further factor nothing is read. -/
theorem keeps_nextFactor? (gr : Grammar) (hfactor : Settles factor) (before : Nat) :
    Keeps (Production.nextFactor? gr factor before) := by
  refine (Keeps.lift Production.Keeps.current?).bind fun o ↦ ?_
  split
  · exact .pure
  · split
    · exact (settles_surfaceRun gr _ _ before).keeps.bind fun _ ↦ .pure
    · exact hfactor.keeps.bind fun _ ↦ .pure
    · exact hfactor.keeps.bind fun _ ↦ .pure
    · exact hfactor.keeps.bind fun _ ↦ .pure
    · exact hfactor.keeps.bind fun _ ↦ .pure
    · exact .pure

theorem settles_intersection (gr : Grammar) (hfactor : Settles factor) :
    Settles (Production.intersection gr factor) := by
  refine hfactor.bind fun o ↦ .loopBuilding (fun left ↦ ?_) o
  refine (keeps_nextFactor? gr hfactor left.id).bind fun r ↦ ?_
  cases r with
  | some right => exact Keeps.join.bind fun _ ↦ .pure
  | none => exact .pure

theorem settles_union (gr : Grammar) (hfactor : Settles factor) :
    Settles (Production.union gr factor) := by
  refine (settles_intersection gr hfactor).bind fun o ↦ .loopBuilding (fun left ↦ ?_) o
  refine (Keeps.lift Production.Keeps.currentKind?).bind fun k ↦ ?_
  split_ifs
  · refine Settles.keeps (.of_bind fun mark ↦ ?_)
    exact (settles_intersection gr hfactor).bind fun _ ↦ Keeps.join.bind fun _ ↦ .pure
  · exact .pure

/-- Factors at every depth of nesting take the layout behind them along. -/
theorem settles_factor (gr : Grammar) (room : Nat) : Settles (Production.factor gr room) := by
  induction room with
  | zero => rintro g c a c' ⟨⟩
  | succ room ih =>
    intro g
    refine Production.Settles.nested ?_
    refine (Settles.of_bind fun o ↦ ?_ : Settles (α := Operand) _) g
    split
    · exact .unexpected
    · split
      · exact settles_leaf _
      · exact settles_leaf _
      · exact settles_complement ih
      · exact settles_group _
      · exact .unexpected

end Building

namespace Production

/-- A geometry takes the layout behind it along. -/
theorem settles_geometry (gr : Grammar) : Settles (geometry gr) := by
  unfold geometry
  split_ifs
  · exact .unexpected
  · exact .of_bind fun c ↦ (Building.settles_union gr (Building.settles_factor gr _) .empty).bind
      fun _ ↦ .pure

/-- A record that is finished where no layout stands next has been read to its end. -/
theorem Reads.finish_of_isSettled {c : Cursor} (hc : c.IsSettled) :
    Reads Production.finish c fun _ ts ↦ ts = [] ∧ c.rest = [] := by
  refine Reads.finish.mono fun _ ts hts ↦ ?_
  obtain ⟨hrest, hlayout⟩ := hts
  cases ts with
  | nil => exact ⟨rfl, hrest⟩
  | cons t ts =>
    have hsolid := hc t (by rw [hrest]; rfl)
    rw [hlayout t (List.mem_cons_self ..)] at hsolid
    cases hsolid

end Production

end TransportDeck
