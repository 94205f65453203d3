import TransportDeck.Proofs.Grammar.Parsing

/-!
# Nesting

Each factor of a geometry is read one level deeper than what it stands in, and there is a limit to
the levels.  However reading ends, it ends on the level on which it has started; and where more
factors are opened in one another than there are levels left, it ends with an error.
-/

namespace TransportDeck

/-! ## Levels -/

namespace Production

variable {α β σ : Type}

/-- However a run ends, it ends on the level on which it has started. -/
def KeepsDepth (p : Production α) : Prop := ∀ c, (p.run c).2.depth = c.depth

namespace KeepsDepth

variable {p : Production α} {f : α → Production β}

theorem pure {a : α} : KeepsDepth (pure a : Production α) := fun _ ↦ rfl

theorem throw {e : SyntaxError} : KeepsDepth (throw e : Production α) := fun _ ↦ rfl

theorem get : KeepsDepth get := fun _ ↦ rfl

theorem advance : KeepsDepth advance := fun _ ↦ rfl

/-- Passing over tokens does not go deeper. -/
theorem takeWhile (p : Token → Bool) : KeepsDepth (takeWhile p) := fun _ ↦ rfl

/-- A run keeps its depth if both of its parts do. -/
theorem bind (hp : KeepsDepth p) (hf : ∀ a, KeepsDepth (f a)) : KeepsDepth (p >>= f) := by
  intro c
  have hc := hp c
  rcases hrun : p.run c with ⟨e | a, c'⟩
  · rw [run_bind_of_error hrun]
    rwa [hrun] at hc
  · rw [run_bind_of_ok hrun, hf a c']
    rwa [hrun] at hc

theorem unexpected {expected : String} : KeepsDepth (unexpected expected : Production α) :=
  get.bind fun _ ↦ throw

theorem tooDeep : KeepsDepth (tooDeep : Production α) := (get.bind fun _ ↦ pure).bind fun _ ↦ throw

theorem current? : KeepsDepth current? := get.bind fun _ ↦ pure

theorem currentKind? : KeepsDepth currentKind? := current?.bind fun _ ↦ pure

/-- Layout is not nested. -/
theorem layout : KeepsDepth layout := (takeWhile _).bind fun _ ↦ pure

theorem orMalformed {span : Span} {e : Except ShorthandError α} :
    KeepsDepth (orMalformed span e) := by
  cases e with
  | ok a => exact pure
  | error e => exact throw

/-- The level is left again whether the phrase fails or not. -/
theorem nested (hp : KeepsDepth p) : KeepsDepth (nested p) := by
  intro c
  by_cases hdeep : c.isTooDeep = true
  · rw [Production.nested, run_bind_of_error (run_enter_of_isTooDeep hdeep)]
  · rw [Bool.not_eq_true] at hdeep
    have hc := hp { c with depth := c.depth + 1 }
    rcases hrun : p.run { c with depth := c.depth + 1 } with ⟨e | a, c'⟩
    · rw [hrun] at hc
      rw [run_nested_of_error hdeep hrun]
      exact congrArg (· - 1) hc
    · rw [hrun] at hc
      rw [run_nested_of_ok hdeep hrun]
      exact congrArg (· - 1) hc

/-- The rounds of a bounded loop keep the depth if each of them does. -/
theorem rounds {round : σ → Production (Option σ)} (hround : ∀ s, KeepsDepth (round s)) (n : Nat)
    (s : σ) : KeepsDepth (rounds round n s) := by
  induction n generalizing s with
  | zero => exact pure
  | succ n ih =>
    refine (hround s).bind fun o ↦ ?_
    cases o with
    | none => exact pure
    | some s' => exact ih s'

/-- A loop keeps the depth if each of its rounds does. -/
theorem loop {round : σ → Production (Option σ)} (hround : ∀ s, KeepsDepth (round s)) (s : σ) :
    KeepsDepth (loop round s) :=
  get.bind fun _ ↦ rounds hround _ s

end KeepsDepth

end Production

namespace Building

variable {α β : Type} {b : Building α} {f : α → Building β} {p : Production α}
  {operand : Building Operand}

def KeepsDepth (b : Building α) : Prop := ∀ g, Production.KeepsDepth (b g)

namespace KeepsDepth

theorem pure {a : α} : KeepsDepth (pure a : Building α) := fun _ ↦ .pure

theorem throw {e : SyntaxError} : KeepsDepth (throw e : Building α) := fun _ _ ↦ rfl

/-- A builder keeps its depth if both of its parts do. -/
theorem bind (hb : KeepsDepth b) (hf : ∀ a, KeepsDepth (f a)) : KeepsDepth (b >>= f) :=
  fun g ↦ Production.KeepsDepth.bind (hb g) fun r ↦ hf r.1 r.2

/-- A production keeps the depth inside the builder of a geometry, too. -/
theorem lift (hp : Production.KeepsDepth p) : KeepsDepth (liftM p) :=
  fun _ ↦ Production.KeepsDepth.bind hp fun _ ↦ .pure

theorem get : KeepsDepth get := fun _ ↦ .pure

theorem place {e : GeometryEntry} : KeepsDepth (Production.place e) := fun _ ↦ .pure

theorem join {op : GeometryOp} {left right : Operand} {mark : Layout} :
    KeepsDepth (Production.join op left mark right) :=
  place.bind fun _ ↦ pure

theorem opening (mark : String) : KeepsDepth (liftM (Production.opening mark)) :=
  lift (Production.KeepsDepth.advance.bind fun _ ↦ Production.KeepsDepth.layout.bind fun _ ↦ .pure)

/-- A loop over operands keeps the depth if each of its rounds does. -/
theorem loopBuilding {round : Operand → Building (Option Operand)}
    (hround : ∀ o, KeepsDepth (round o)) (o : Operand) :
    KeepsDepth (Production.loopBuilding round o) := by
  intro g
  exact Production.KeepsDepth.loop (fun r ↦ Production.KeepsDepth.bind (hround r.1 r.2) fun _ ↦
    .pure) (o, g)

theorem behind (id : Nat) :
    KeepsDepth (do return (⟨id, ← Production.layout⟩ : Operand) : Building Operand) :=
  (lift Production.KeepsDepth.layout).bind fun _ ↦ pure

theorem leaf (t : Token) : KeepsDepth (Production.leaf t) := by
  unfold Production.leaf
  split
  · exact throw
  · exact (lift .advance).bind fun _ ↦ place.bind fun id ↦ behind id

/-- A complement ends on the level on which its operand does. -/
theorem complement (hoperand : KeepsDepth operand) :
    KeepsDepth (Production.complement operand) := by
  refine (opening "#").bind fun _ ↦ (lift .current?).bind fun o ↦ ?_
  split_ifs
  · exact hoperand.bind fun _ ↦ place.bind fun _ ↦ pure
  · exact lift .unexpected

/-- A group goes one level deeper for what it encloses, and comes back. -/
theorem group (hoperand : KeepsDepth operand) : KeepsDepth (Production.group operand) := by
  refine (opening "(").bind fun _ ↦ hoperand.bind fun _ ↦ (lift .currentKind?).bind fun k ↦ ?_
  split_ifs
  · exact (lift .advance).bind fun _ ↦ place.bind fun id ↦ behind id
  · exact lift .unexpected

theorem surfaceRun (gr : Grammar) (kind : ShorthandKind) (t : Token) (before : Nat) :
    KeepsDepth (Production.surfaceRun gr kind t before) := by
  have built (span : Span) (e : Except ShorthandError Shorthand) :
      KeepsDepth (liftM (Production.orMalformed span e) >>= fun s ↦ (do
        let id ← Production.place (.run s)
        return (⟨id, ← Production.layout⟩ : Operand) : Building Operand)) :=
    (lift .orMalformed).bind fun _ ↦ place.bind fun id ↦ behind id
  refine (lift .advance).bind fun _ ↦ ?_
  split_ifs
  · exact throw
  · refine get.bind fun tree ↦ ?_
    dsimp only
    split
    · exact built _ _
    · exact built _ _
    · exact throw.bind fun _ ↦ place.bind fun id ↦ behind id

/-- The next factor of an intersection ends on the level of the intersection. -/
theorem nextFactor? (gr : Grammar) (hoperand : KeepsDepth operand) (before : Nat) :
    KeepsDepth (Production.nextFactor? gr operand before) := by
  refine (lift .current?).bind fun o ↦ ?_
  split
  · exact pure
  · split
    · exact (surfaceRun gr _ _ before).bind fun _ ↦ pure
    · exact hoperand.bind fun _ ↦ pure
    · exact hoperand.bind fun _ ↦ pure
    · exact hoperand.bind fun _ ↦ pure
    · exact hoperand.bind fun _ ↦ pure
    · exact pure

theorem intersection (gr : Grammar) (hoperand : KeepsDepth operand) :
    KeepsDepth (Production.intersection gr operand) := by
  refine hoperand.bind fun o ↦ loopBuilding (fun left ↦ ?_) o
  refine (nextFactor? gr hoperand left.id).bind fun r ↦ ?_
  cases r with
  | some right => exact join.bind fun _ ↦ pure
  | none => exact pure

theorem union (gr : Grammar) (hoperand : KeepsDepth operand) :
    KeepsDepth (Production.union gr operand) := by
  have hcolon (l : Option Layout) : Production.KeepsDepth (Production.colon l) :=
    .bind .advance fun _ ↦ .bind .layout fun _ ↦ .pure
  refine (intersection gr hoperand).bind fun o ↦ loopBuilding (fun left ↦ ?_) o
  refine (lift .currentKind?).bind fun k ↦ ?_
  split_ifs
  · exact (lift (hcolon _)).bind fun _ ↦
      (intersection gr hoperand).bind fun _ ↦ join.bind fun _ ↦ pure
  · exact pure

/-- A factor comes back from as many levels as there are left. -/
theorem factor (gr : Grammar) (room : Nat) : KeepsDepth (Production.factor gr room) := by
  induction room with
  | zero => exact fun _ ↦ (lift .tooDeep : KeepsDepth (liftM (Production.tooDeep (α := Operand)))) _
  | succ room ih =>
    intro g
    refine Production.KeepsDepth.nested ?_
    refine ((lift .current?).bind fun o ↦ ?_ : KeepsDepth (α := Operand) _) g
    split
    · exact lift .unexpected
    · split
      · exact leaf _
      · exact leaf _
      · exact complement ih
      · exact group (union gr ih)
      · exact lift .unexpected

end KeepsDepth

end Building

namespace Production

/-- A geometry is read on one level, however it ends. -/
theorem keepsDepth_geometry (gr : Grammar) : KeepsDepth (geometry gr) := by
  unfold geometry
  split_ifs
  · exact .unexpected
  · exact .bind .get fun c ↦
      .bind (Building.KeepsDepth.union gr (Building.KeepsDepth.factor gr _) .empty) fun _ ↦ .pure

end Production

/-! ## Opening -/

/-- The tokens open so many factors in one another: each is a parenthesis, or a `#` before a
parenthesis or a number. -/
inductive Opens : Nat → List Token → Prop where
  | start (ts : List Token) : Opens 0 ts
  | group {n : Nat} {t : Token} {ts ls us : List Token} (mark : t.kind = .leftParen)
      (layout : Skips ts ls us) (inner : Opens n us) : Opens (n + 1) (t :: ts)
  | complement {n : Nat} {t : Token} {ts ls us : List Token} (mark : t.kind = .complement)
      (layout : Skips ts ls us) (starts : us.head?.any Production.startsOperand = true)
      (operand : Opens n us) : Opens (n + 1) (t :: ts)

namespace Building

variable {α β : Type} {b : Building α} {f : α → Building β} {g : Geometry} {c : Cursor}
  {R : β → Geometry → List Token → Prop}

/-- Nothing is done behind what yields nothing. -/
theorem Yields.bind_of_false (h : Yields b g c fun _ _ _ ↦ False) : Yields (b >>= f) g c R :=
  h.bind fun _ _ _ hfalse ↦ hfalse.elim

/-- Without room for them, nothing but an error comes of factors in one another. -/
theorem yields_of_opens (gr : Grammar) {n room : Nat} (h : Opens n c.rest) (hroom : room ≤ n)
    (g : Geometry) : Yields (Production.factor gr room) g c fun _ _ _ ↦ False := by
  generalize hts : c.rest = ts at h
  induction h generalizing room c g with
  | start =>
    obtain rfl := Nat.le_zero.mp hroom
    exact Production.Yields.tooDeep
  | group mark layout _ ih =>
    cases room with
    | zero => exact Production.Yields.tooDeep
    | succ room =>
      refine Production.Yields.nested fun c' hc' ↦ ?_
      rw [hts] at hc'
      refine (Yields.current ?_ : Yields _ g c' fun (_ : Operand) _ _ ↦ False)
      rw [hc', List.head?_cons]
      dsimp only
      rw [mark]
      refine .lift (Yields.opening hc' layout) fun _ c₁ hc₁ ↦ ?_
      -- A union starts with an intersection, and that with a factor.
      exact (ih (Nat.le_of_succ_le_succ hroom) g hc₁).bind_of_false.bind_of_false.bind_of_false
  | complement mark layout starts _ ih =>
    cases room with
    | zero => exact Production.Yields.tooDeep
    | succ room =>
      refine Production.Yields.nested fun c' hc' ↦ ?_
      rw [hts] at hc'
      refine (Yields.current ?_ : Yields _ g c' fun (_ : Operand) _ _ ↦ False)
      rw [hc', List.head?_cons]
      dsimp only
      rw [mark]
      refine .lift (Yields.opening hc' layout) fun _ c₁ hc₁ ↦ .current ?_
      rw [hc₁, if_pos starts]
      exact (ih (Nat.le_of_succ_le_succ hroom) g hc₁).bind_of_false

end Building

/-- Factors that are opened on more levels than there are end the reading of a geometry. -/
theorem Production.exists_nestedTooDeep {gr : Grammar} (hgr : gr.allows .geometry = true) {n : Nat}
    {c : Cursor} (h : Opens n c.rest) (hdeep : Limits.parseDepth ≤ c.depth + n) :
    ∃ span c', (geometry gr).run c = (.error (.nestedTooDeep span), c') := by
  have hfactor := Building.yields_of_opens gr h (Nat.sub_le_iff_le_add'.mpr hdeep) .empty
  have hunion : Building.Yields (union gr (factor gr (Limits.parseDepth - c.depth))) .empty c
      fun _ _ _ ↦ False := hfactor.bind_of_false.bind_of_false
  have hgeometry : Yields (geometry gr) c fun _ _ ↦ False := by
    unfold geometry
    rw [hgr]
    exact .get (Yields.bind hunion fun _ _ hfalse ↦ hfalse.elim)
  obtain ⟨c', -, ⟨_, -, h⟩ | ⟨span, hrun⟩⟩ := hgeometry
  · exact h.elim
  · exact ⟨span, c', hrun⟩

end TransportDeck
