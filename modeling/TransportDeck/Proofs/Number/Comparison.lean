import Mathlib
import TransportDeck.Number.Tolerance

/-!
# Comparing floats

Comparison within a tolerance does not depend on the order of its arguments, and every float that is
a number is close to itself.  Both facts come down to the bits: changing the sign of a float
changes its sign bit and nothing else, so a difference and its opposite have the same magnitude.
-/

namespace TransportDeck

open Float.Model

/-! ## Order -/

namespace Unpacked

variable {u v : UnpackedFloat}

/-- Comparing the other way round swaps the result. -/
theorem compare_swap (u v : UnpackedFloat) : v.compare u = (u.compare v).map Ordering.swap := by
  cases u with
  | notANumber => cases v with
    | infinity s => cases s <;> rfl
    | _ => rfl
  | infinity s => cases v with
    | infinity s' => cases s <;> cases s' <;> rfl
    | notANumber => cases s <;> rfl
    | zero s' => cases s <;> rfl
    | finite s' m e h => cases s <;> cases s' <;> rfl
  | zero s => cases v with
    | infinity s' => cases s' <;> rfl
    | notANumber => rfl
    | zero s' => rfl
    | finite s' m e h => cases s' <;> rfl
  | finite s m e h => cases v with
    | infinity s' => cases s <;> cases s' <;> rfl
    | notANumber => cases s <;> rfl
    | zero s' => cases s <;> rfl
    | finite s' m' e' h' =>
      have key : (compare e' e).then (compare m' m) =
          ((compare e e').then (compare m m')).swap := by
        rw [Ordering.swap_then, Int.compare_swap, Nat.compare_swap]
      cases s <;> cases s' <;> simp [UnpackedFloat.compare, key]

/-- A number that is defined compares as equal to itself. -/
theorem compare_self (h : u.isNaN = false) : u.compare u = some .eq := by
  cases u with
  | notANumber => simp [UnpackedFloat.isNaN] at h
  | infinity s => cases s <;> rfl
  | zero s => cases s <;> rfl
  | finite s m e h => cases s <;> simp [UnpackedFloat.compare]

/-- Numbers can be compared. -/
theorem exists_compare (hu : u.isNaN = false) (hv : v.isNaN = false) :
    ∃ o, u.compare v = some o := by
  cases u with
  | notANumber => simp [UnpackedFloat.isNaN] at hu
  | infinity s => cases v with
    | notANumber => simp [UnpackedFloat.isNaN] at hv
    | infinity s' => cases s <;> cases s' <;> exact ⟨_, rfl⟩
    | zero s' => cases s <;> exact ⟨_, rfl⟩
    | finite s' m e h => cases s <;> exact ⟨_, rfl⟩
  | zero s => cases v with
    | notANumber => simp [UnpackedFloat.isNaN] at hv
    | infinity s' => cases s' <;> exact ⟨_, rfl⟩
    | zero s' => exact ⟨_, rfl⟩
    | finite s' m e h => cases s' <;> exact ⟨_, rfl⟩
  | finite s m e h => cases v with
    | notANumber => simp [UnpackedFloat.isNaN] at hv
    | infinity s' => cases s <;> cases s' <;> exact ⟨_, rfl⟩
    | zero s' => cases s <;> exact ⟨_, rfl⟩
    | finite s' m' e' h' => cases s <;> cases s' <;> exact ⟨_, rfl⟩

/-- Floats of positive sign that compare as equal are the same. -/
theorem eq_of_compare_abs (h : u.abs.compare v.abs = some .eq) : u.abs = v.abs := by
  cases u with
  | notANumber => simp [UnpackedFloat.abs, UnpackedFloat.compare] at h
  | infinity s => cases v with
    | infinity s' => rfl
    | _ => simp [UnpackedFloat.abs, UnpackedFloat.compare] at h
  | zero s => cases v with
    | zero s' => rfl
    | _ => simp [UnpackedFloat.abs, UnpackedFloat.compare] at h
  | finite s m e hm => cases v with
    | finite s' m' e' hm' =>
      simp only [UnpackedFloat.abs, UnpackedFloat.compare, Option.some.injEq,
        Ordering.then_eq_eq, compare_eq_iff_eq] at h
      simp only [UnpackedFloat.abs, h.1, h.2]
    | _ => simp [UnpackedFloat.abs, UnpackedFloat.compare] at h

/-! ## Signs -/

variable {f : Format}

/-- The sign is not changed by packing the parts. -/
theorem unpackSign_packComponents {s : UnpackedFloat.Sign} {e : BitVec f.exponentBits}
    {m : BitVec f.mantissaBitsWithoutImplicit} :
    UnpackedFloat.unpackSign (UnpackedFloat.packComponents f s e m) = s.toBitVec := by
  ext i hi
  have hi' : i = 0 := by omega
  subst hi'
  simp [UnpackedFloat.unpackSign, UnpackedFloat.packComponents, BitVec.getLsbD_append,
    BitVec.getElem_append]

/-- The absolute value does not depend on the sign that is packed. -/
theorem abs_unpack_packComponents (s s' : UnpackedFloat.Sign) (e : BitVec f.exponentBits)
    (m : BitVec f.mantissaBitsWithoutImplicit) :
    (UnpackedFloat.unpack f (UnpackedFloat.packComponents f s e m)).abs =
      (UnpackedFloat.unpack f (UnpackedFloat.packComponents f s' e m)).abs := by
  simp only [UnpackedFloat.unpack, UnpackedFloat.unpackMantissa_packComponents,
    UnpackedFloat.unpackExponent_packComponents]
  split_ifs <;> rfl

theorem abs_unpack_positive (e : BitVec f.exponentBits)
    (m : BitVec f.mantissaBitsWithoutImplicit) :
    (UnpackedFloat.unpack f (UnpackedFloat.packComponents f .positive e m)).abs =
      UnpackedFloat.unpack f (UnpackedFloat.packComponents f .positive e m) := by
  have hs : UnpackedFloat.Sign.ofBitVec (UnpackedFloat.Sign.toBitVec .positive) = .positive := rfl
  simp only [UnpackedFloat.unpack, UnpackedFloat.unpackMantissa_packComponents,
    UnpackedFloat.unpackExponent_packComponents, unpackSign_packComponents, hs]
  split_ifs <;> rfl

/-- Packing and taking the absolute value may be exchanged. -/
theorem abs_unpack_pack (u : UnpackedFloat) :
    (UnpackedFloat.unpack f (UnpackedFloat.pack f u.abs)).abs =
      (UnpackedFloat.unpack f (UnpackedFloat.pack f u)).abs := by
  cases u with
  | notANumber => rfl
  | infinity s => exact abs_unpack_packComponents _ _ _ _
  | zero s => exact abs_unpack_packComponents _ _ _ _
  | finite s m e h =>
    simp only [UnpackedFloat.abs, UnpackedFloat.pack]
    split_ifs <;> exact abs_unpack_packComponents _ _ _ _

/-- What was packed without a sign has none. -/
theorem unpack_pack_abs (u : UnpackedFloat) :
    (UnpackedFloat.unpack f (UnpackedFloat.pack f u.abs)).abs =
      UnpackedFloat.unpack f (UnpackedFloat.pack f u.abs) := by
  cases u with
  | notANumber => exact abs_unpack_positive _ _
  | infinity s => exact abs_unpack_positive _ _
  | zero s => exact abs_unpack_positive _ _
  | finite s m e h =>
    simp only [UnpackedFloat.abs, UnpackedFloat.pack]
    split_ifs <;> exact abs_unpack_positive _ _

/-! ## Differences -/

/-- Rounding does not look at the sign. -/
theorem abs_round (s s' : UnpackedFloat.Sign) (m : Nat) (e : Int) :
    (UnpackedFloat.round f s m e).abs = (UnpackedFloat.round f s' m e).abs := by
  simp only [UnpackedFloat.round, UnpackedFloat.roundWithAccuracy]
  split_ifs <;> rfl

/-- Normalising does not look at the sign. -/
theorem abs_normalize_neg (m e : Int) (s s' : UnpackedFloat.Sign) :
    (UnpackedFloat.normalize f (-m) e s).abs = (UnpackedFloat.normalize f m e s').abs := by
  obtain h | rfl | h := lt_trichotomy m 0
  · have h₁ : compare (-m) 0 = .gt := by rw [compare_gt_iff_gt]; omega
    have h₂ : compare m 0 = .lt := by rw [compare_lt_iff_lt]; exact h
    simp only [UnpackedFloat.normalize, h₁, h₂]
    exact abs_round _ _ _ _
  · simp [UnpackedFloat.normalize, UnpackedFloat.abs]
  · have h₁ : compare (-m) 0 = .lt := by rw [compare_lt_iff_lt]; omega
    have h₂ : compare m 0 = .gt := by rw [compare_gt_iff_gt]; exact h
    simp only [UnpackedFloat.normalize, h₁, h₂, neg_neg]
    exact abs_round _ _ _ _

/-- A difference is the same in absolute value both ways. -/
theorem abs_sub_comm (u v : UnpackedFloat) :
    (UnpackedFloat.sub f u v).abs = (UnpackedFloat.sub f v u).abs := by
  cases u with
  | notANumber => cases v <;> rfl
  | infinity s => cases v with
    | infinity s' => cases s <;> cases s' <;> rfl
    | _ => rfl
  | zero s => cases v with
    | zero s' => cases s <;> cases s' <;> rfl
    | _ => rfl
  | finite s m e h => cases v with
    | finite s' m' e' h' =>
      simp only [UnpackedFloat.sub, min_comm e' e]
      rw [← neg_sub (s.apply _) (s'.apply _)]
      exact (abs_normalize_neg ..).symm
    | _ => rfl

end Unpacked

/-! ## Floats -/

/-- The parts of a float. -/
def unpacked (x : Float) : UnpackedFloat := x.toModel.unpack

theorem unpacked_abs (x : Float) : (unpacked x.abs).abs = unpacked x.abs :=
  Unpacked.unpack_pack_abs (unpacked x)

/-- Floats are compared alike both ways. -/
theorem beq_comm_float (x y : Float) : (x == y) = (y == x) := by
  change ((unpacked x).compare (unpacked y) == some .eq) =
    ((unpacked y).compare (unpacked x) == some .eq)
  rw [Unpacked.compare_swap (unpacked x)]
  cases (unpacked x).compare (unpacked y) with
  | none => rfl
  | some o => cases o <;> rfl

/-- A float that is defined is equal to itself. -/
theorem beq_self_of_isNaN {x : Float} (h : x.isNaN = false) : (x == x) = true := by
  have h : (unpacked x).isNaN = false := h
  change ((unpacked x).compare (unpacked x) == some .eq) = true
  rw [Unpacked.compare_self h]
  rfl

/-- A difference of floats is the same in absolute value both ways. -/
theorem abs_sub_comm_float (x y : Float) : (x - y).abs = (y - x).abs := by
  have key : (unpacked (x - y)).abs = (unpacked (y - x)).abs := by
    change (UnpackedFloat.unpack .binary64 (UnpackedFloat.pack .binary64
        (UnpackedFloat.sub .binary64 (unpacked x) (unpacked y)))).abs =
      (UnpackedFloat.unpack .binary64 (UnpackedFloat.pack .binary64
        (UnpackedFloat.sub .binary64 (unpacked y) (unpacked x)))).abs
    rw [← Unpacked.abs_unpack_pack, Unpacked.abs_sub_comm, Unpacked.abs_unpack_pack]
  exact congrArg (fun u ↦ Float.ofModel (Float.Model.pack u)) key

theorem lt_iff_unpacked {x y : Float} : x < y ↔ (unpacked x).compare (unpacked y) = some .lt := by
  have h : x < y ↔ decide (((unpacked x).compare (unpacked y) == some .lt) = true) = true := Iff.rfl
  rw [h, decide_eq_true_iff, beq_iff_eq]

/-- The larger of two magnitudes is the same in either order. -/
theorem unpacked_maxFloat_comm (x y : Float) :
    unpacked (maxFloat x.abs y.abs) = unpacked (maxFloat y.abs x.abs) := by
  have nan (z : Float) (h : z.isNaN = true) : unpacked z = .notANumber := by
    have h : (unpacked z).isNaN = true := h
    cases hz : unpacked z <;> simp_all [UnpackedFloat.isNaN]
  have hswap := Unpacked.compare_swap (unpacked x.abs) (unpacked y.abs)
  unfold maxFloat
  by_cases hx : x.abs.isNaN = true
  · by_cases hy : y.abs.isNaN = true
    · rw [if_pos hx, if_pos hy, nan _ hx, nan _ hy]
    · rw [if_pos hx, if_neg hy, if_pos hx]
  by_cases hy : y.abs.isNaN = true
  · rw [if_neg hx, if_pos hy, if_pos hy]
  rw [if_neg hx, if_neg hy, if_neg hy, if_neg hx]
  by_cases hlt : x.abs < y.abs
  · have hgt : ¬y.abs < x.abs := by
      rw [lt_iff_unpacked] at hlt ⊢
      simp [hswap, hlt]
    rw [if_pos hlt, if_neg hgt]
  by_cases hgt : y.abs < x.abs
  · rw [if_neg hlt, if_pos hgt]
  rw [if_neg hlt, if_neg hgt]
  have heq : (unpacked x.abs).compare (unpacked y.abs) = some .eq := by
    obtain ⟨o, ho⟩ := Unpacked.exists_compare (Bool.eq_false_iff.mpr hx) (Bool.eq_false_iff.mpr hy)
    rw [lt_iff_unpacked] at hlt hgt
    cases o with
    | lt => exact absurd ho hlt
    | eq => exact ho
    | gt => exact absurd (by rw [hswap]; simp [unpacked, ho]) hgt
  rw [← unpacked_abs, ← unpacked_abs y] at heq
  rw [← unpacked_abs, ← unpacked_abs y, Unpacked.eq_of_compare_abs heq]

/-! ## Tolerance -/

namespace Tolerance

/-- A float that is defined is close to itself, whatever the tolerance. -/
theorem close_self (t : Tolerance) {x : Float} (h : x.isNaN = false) : t.close x x = true := by
  rw [close, if_pos (beq_self_of_isNaN h)]

/-- Being within a tolerance of one another is symmetric. -/
theorem close_comm (t : Tolerance) (x y : Float) : t.close x y = t.close y x := by
  have hmax : t.rel * maxFloat x.abs y.abs = t.rel * maxFloat y.abs x.abs :=
    congrArg (fun u ↦ Float.ofModel (Float.Model.pack
      (UnpackedFloat.mul .binary64 (unpacked t.rel) u))) (unpacked_maxFloat_comm x y)
  simp only [close, beq_comm_float x y, Bool.or_comm (!x.isFinite), abs_sub_comm_float x y, hmax]

end Tolerance

end TransportDeck
