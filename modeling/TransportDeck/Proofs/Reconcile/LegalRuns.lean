import TransportDeck.Proofs.Number.Comparison
import TransportDeck.Proofs.Reconcile.Conservation

/-!
# Reconciled runs are legal

A shorthand can only be written over values that it stands for: places left open for a jump, close
neighbours for copies, two values for a factor, even steps for an interpolation.  A run grows from
its root one entry at a time, so it is enough to look at single steps; and since a chained run
starts right behind another one, the value it goes on from is there when the items are made.
-/

namespace TransportDeck

/-- Values are close both ways. -/
theorem Value.close_comm (t : Tolerance) (a b : Value) : a.close t b = b.close t a := by
  cases a <;> cases b <;> simp [Value.close, Value.toReal?, t.close_comm, BEq.comm]

namespace Shorthand

/-! ## Legal runs -/

/-- Both are values, and they are equal within the tolerance. -/
def Within (t : Tolerance) (a b : Option Value) : Prop :=
  ∃ x y, a = some x ∧ b = some y ∧ x.close t y = true

theorem Within.symm {t : Tolerance} {a b : Option Value} (h : Within t a b) : Within t b a := by
  obtain ⟨x, y, hx, hy, hxy⟩ := h
  exact ⟨y, x, hy, hx, by rwa [Value.close_comm]⟩

/-- From `a` it is one step of the interpolation to `b`. -/
def Steps (t : Tolerance) (s : Shorthand) (forward : Bool) (a b : Option Value) : Prop :=
  ∃ x y next, a.bind Value.toReal? = some x ∧ b.bind Value.toReal? = some y ∧
    s.stepFrom? x forward = some next ∧ t.close next y = true

/-- The values may stand in a run of this kind, which may be chained to the run before. -/
structure Fits (t : Tolerance) (s : Shorthand) (chained : Bool) (vs : List (Option Value)) :
    Prop where
  enough : s.minimumMembers chained ≤ vs.length
  open_iff : ∀ v ∈ vs, v = none ↔ s.kind = .jump
  not_jump_of_chained : chained = true → s.kind ≠ .jump
  copies : s.kind = .copies → vs.IsChain (Within t)
  multiply : s.kind = .multiply → vs.length = if chained then 1 else 2
  /-- Around some root the steps lead backward before it and forward behind it. -/
  interpolation : s.kind.isInterpolation = true → ∃ before root behind,
    vs = before ++ root :: behind ∧
      (before ++ [root]).IsChain (fun a b ↦ s.Steps t false b a) ∧
      (root :: behind).IsChain (s.Steps t true)

def IsLegal (t : Tolerance) (s : Shorthand) : Prop := s.Fits t s.chained s.values

/-! ## Single steps -/

/-- A run that ends at `a` may take `b`. -/
def Takes (t : Tolerance) (s : Shorthand) (forward : Bool) (a b : Field) : Prop :=
  ∃ size, s.accepts t a b forward size = true

variable {t : Tolerance} {s : Shorthand} {forward : Bool} {a b : Field}

/-- A jump takes places left open, and nothing else does. -/
theorem Takes.isJump_iff (h : s.Takes t forward a b) : b.isJump = true ↔ s.kind = .jump := by
  obtain ⟨size, h⟩ := h
  have number (hb : b.toReal?.isSome = true) : b.isJump = false :=
    Field.isJump_eq_false_of_toReal? hb
  unfold accepts at h
  split at h
  · next hk => simp [hk, h]
  · next hk =>
    split at h
    · next hy =>
      have : b.isJump = false := by
        rw [Bool.eq_false_iff, ne_eq, ← Field.signed_eq_none_iff, hy]
        nofun
      simp [hk, this]
    · cases h
  · next hk =>
    simp only [Bool.and_eq_true] at h
    simp [hk, number h.2]
  · next hk =>
    have : b.toReal?.isSome = true := by
      unfold stepFits at h
      split at h
      · next hy => simp [hy]
      · cases h
    simp [hk, number this]
  · next hk =>
    have : b.toReal?.isSome = true := by
      unfold stepFits at h
      split at h
      · next hy => simp [hy]
      · cases h
    simp [hk, number this]

/-- A repeat takes values within the tolerance. -/
theorem Takes.within (hk : s.kind = .copies) (h : s.Takes t forward a b) :
    Within t a.signed b.signed := by
  obtain ⟨size, h⟩ := h
  simp only [accepts, hk] at h
  split at h
  · next x y hx hy => exact ⟨x, y, hx, hy, h⟩
  · cases h

/-- An interpolation takes values that are one step further. -/
theorem Takes.steps (hk : s.kind.isInterpolation = true) (h : s.Takes t forward a b) :
    s.Steps t forward a.signed b.signed := by
  obtain ⟨size, h⟩ := h
  have h : s.stepFits t a b forward = true := by
    unfold accepts at h
    split at h <;> simp_all [ShorthandKind.isInterpolation]
  unfold stepFits at h
  split at h
  · next x y hx hy =>
    split at h
    · next next hnext => exact ⟨x, y, next, hx, hy, hnext, h⟩
    · cases h
  · cases h

/-- A multiplication takes one value, and none if it is chained. -/
theorem Takes.size_lt_two {size : Nat} (hk : s.kind = .multiply)
    (h : s.accepts t a b forward size = true) : s.chained = false ∧ size < 2 := by
  simp only [accepts, hk, Bool.and_eq_true, Bool.not_eq_true', decide_eq_true_eq] at h
  exact ⟨h.1.1.1, h.1.1.2⟩

end Shorthand

namespace Reconcile

open Shorthand

variable {t : Tolerance} {s : Shorthand}

/-! ## Growing -/

/-- What a run grows over makes a chain with its root, each value taken by the one before it. -/
theorem grow_isChain (forward : Bool) (edge : Field) (size : Nat) (es : List ListEntry) :
    (edge :: (grow t s forward edge size es).1.map (·.field)).IsChain (s.Takes t forward) := by
  induction es generalizing edge size with
  | nil => exact .singleton _
  | cons e es ih =>
    rw [grow]
    split_ifs with h
    · rw [Bool.and_eq_true] at h
      exact .cons_cons ⟨size, h.2⟩ (ih e.field (size + 1))
    · exact .singleton _

/-- A run of two is as long as a factor can be, and a chained one does not grow at all. -/
theorem grow_multiply (hk : s.kind = .multiply) (forward : Bool) (edge : Field) (size : Nat)
    (es : List ListEntry) : (grow t s forward edge size es).1 = [] ∨
      s.chained = false ∧ size + (grow t s forward edge size es).1.length ≤ 2 := by
  induction es generalizing edge size with
  | nil => exact .inl rfl
  | cons e es ih =>
    rw [grow]
    split_ifs with h
    · rw [Bool.and_eq_true] at h
      obtain ⟨hc, hsize⟩ := Takes.size_lt_two hk h.2
      refine .inr ⟨hc, ?_⟩
      rcases ih e.field (size + 1) with hnil | ⟨-, hle⟩
      · simp only [hnil, List.length_singleton]
        omega
      · simp only [List.length_cons]
        omega
    · exact .inl rfl

theorem forall_of_isChain_cons {α : Type} {R : α → α → Prop} {P : α → Prop}
    (hR : ∀ a b, R a b → P b) {a : α} {l : List α} (h : (a :: l).IsChain R) : ∀ b ∈ l, P b := by
  induction l generalizing a with
  | nil => nofun
  | cons c l ih =>
    obtain ⟨hac, hl⟩ := List.isChain_cons_cons.mp h
    exact List.forall_mem_cons.mpr ⟨hR a c hac, ih hl⟩

namespace Rooting

variable {anchor : Option Field} {before behind : List ListEntry} {root : ListEntry}

/-- The entries that the run takes. -/
def run (r : Rooting t s anchor before root behind) : List ListEntry :=
  r.back.reverse ++ root :: r.forth

/-- What a run takes backwards makes a chain with its root. -/
theorem back_isChain (r : Rooting t s anchor before root behind) :
    (root.field :: r.back.map (·.field)).IsChain (s.Takes t false) := by
  have h := r.grow_back
  split_ifs at h
  · rw [← (Prod.mk.inj h).1]
    exact .singleton _
  · have hg := grow_isChain (t := t) (s := s) false root.field 1 before
    rwa [h] at hg

/-- What a run takes forwards makes a chain with its root. -/
theorem forth_isChain (r : Rooting t s anchor before root behind) :
    (root.field :: r.forth.map (·.field)).IsChain (s.Takes t true) := by
  have hg := grow_isChain (t := t) (s := s) true root.field (r.back.length + 1) behind
  rwa [r.grow_forth] at hg

/-- A jump is rooted at a place left open, and no other run is. -/
theorem root_isJump_iff (r : Rooting t s anchor before root behind) :
    root.field.isJump = true ↔ s.kind = .jump := by
  have h := r.canRoot
  unfold canRootAt at h
  split at h
  · next hk => simp [hk, h]
  · next hk => simp_all
  · next hj hc =>
      exact ⟨fun hf ↦ by simp [Field.isJump_eq_false_of_toReal? h] at hf, fun hk ↦ (hj hk).elim⟩

/-- All values of a run are places left open, or none of them is. -/
theorem open_iff (r : Rooting t s anchor before root behind) :
    ∀ v ∈ r.run.map ListEntry.value, v = none ↔ s.kind = .jump := by
  have key (f : Field) (hf : f.isJump = true ↔ s.kind = .jump) :
      f.signed = none ↔ s.kind = .jump := Field.signed_eq_none_iff.trans hf
  have hback := forall_of_isChain_cons (fun _ b h ↦ key b h.isJump_iff) r.back_isChain
  have hforth := forall_of_isChain_cons (fun _ b h ↦ key b h.isJump_iff) r.forth_isChain
  simp only [run, List.map_append, List.map_reverse, List.map_cons, List.mem_append,
    List.mem_reverse, List.mem_cons, List.mem_map]
  rintro v (⟨e, he, rfl⟩ | rfl | ⟨e, he, rfl⟩)
  · exact hback e.field (List.mem_map_of_mem he)
  · exact key root.field r.root_isJump_iff
  · exact hforth e.field (List.mem_map_of_mem he)

/-- Steps backward from the root, and steps forward from it. -/
theorem isChain_values {R : Bool → Option Value → Option Value → Prop}
    (hR : ∀ forward a b, s.Takes t forward a b → R forward a.signed b.signed)
    (r : Rooting t s anchor before root behind) :
    ((r.back.map ListEntry.value).reverse ++ [root.value]).IsChain (fun a b ↦ R false b a) ∧
      (root.value :: r.forth.map ListEntry.value).IsChain (R true) := by
  constructor
  · have h := (List.isChain_map Field.signed).mpr (r.back_isChain.imp (hR false))
    rw [List.map_cons, ListEntry.map_signed_field] at h
    have h := List.isChain_reverse.mpr h
    rwa [List.reverse_cons] at h
  · have h := (List.isChain_map Field.signed).mpr (r.forth_isChain.imp (hR true))
    rwa [List.map_cons, ListEntry.map_signed_field] at h

theorem back_length_multiply (hk : s.kind = .multiply) (r : Rooting t s anchor before root behind) :
    r.back.length ≤ 1 := by
  have h := r.grow_back
  split_ifs at h
  · rw [← (Prod.mk.inj h).1]
    exact Nat.zero_le 1
  · have hg := grow_multiply (t := t) hk false root.field 1 before
    simp only [h] at hg
    rcases hg with hg | ⟨-, hg⟩
    · rw [hg]
      exact Nat.zero_le 1
    · omega

/-- A multiplication stands for its product, and for its base unless it is chained. -/
theorem length_multiply (hk : s.kind = .multiply) (r : Rooting t s anchor before root behind) :
    r.run.length = if r.chained then 1 else 2 := by
  have hlong := r.long_enough
  have hback := r.back_length_multiply hk
  have hforth := grow_multiply (t := t) hk true root.field (r.back.length + 1) behind
  simp only [r.grow_forth] at hforth
  simp only [minimumMembers, hk, List.length_append, List.length_reverse,
    List.length_cons] at hlong
  simp only [run, List.length_append, List.length_reverse, List.length_cons]
  cases hc : r.chained with
  | true =>
    have hnil : r.back = [] := by
      have h := r.grow_back
      rw [hc, if_pos rfl] at h
      exact (Prod.mk.inj h).1.symm
    rcases hforth with hforth | ⟨hfalse, -⟩
    · simp [hnil, hforth]
    · simp [(r.chained_imp hc).1] at hfalse
  | false =>
    simp only [hc, Bool.false_eq_true, if_false] at hlong ⊢
    rcases hforth with hforth | ⟨-, hforth⟩
    · rw [hforth, List.length_nil] at hlong ⊢
      omega
    · omega

/-- A run that takes root is legal. -/
theorem fits (r : Rooting t s anchor before root behind) :
    s.Fits t r.chained (r.run.map ListEntry.value) where
  enough := by simpa [run] using r.long_enough
  open_iff := r.open_iff
  not_jump_of_chained := by
    intro hc hk
    obtain ⟨-, -, a, -, ha⟩ := r.chained_imp hc
    simp [continuesFrom, hk] at ha
  copies := by
    intro hk
    obtain ⟨hback, hforth⟩ := r.isChain_values (R := fun _ ↦ Within t) fun _ _ _ h ↦ h.within hk
    simp only [run, List.map_append, List.map_reverse, List.map_cons]
    exact List.isChain_split.mpr ⟨hback.imp fun _ _ h ↦ h.symm, hforth⟩
  multiply := by
    intro hk
    rw [List.length_map, r.length_multiply hk]
  interpolation := by
    intro hk
    refine ⟨_, _, _, ?_, r.isChain_values fun _ _ _ h ↦ h.steps hk⟩
    simp [run]

end Rooting

end Reconcile

end TransportDeck
