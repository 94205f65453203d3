import TransportDeck.Proofs.Number.Reading

/-!
# Rounding

A float has 53 binary digits.  A number that needs no more of them is stored as it is; any other is
rounded, and comes out between the same two powers of two or at the upper one of them.
-/

namespace TransportDeck

open Float.Model

theorem log2_mul_two_pow {m : Nat} (hm : m ≠ 0) (k : Nat) : (m * 2 ^ k).log2 = m.log2 + k := by
  rw [Nat.log2_eq_iff (Nat.mul_ne_zero hm (Nat.two_pow_pos k).ne')]
  have hlow := Nat.log2_self_le hm
  have hhigh := Nat.lt_log2_self (n := m)
  constructor
  · rw [Nat.pow_add]
    exact Nat.mul_le_mul_right _ hlow
  · rw [Nat.add_right_comm, Nat.pow_add]
    exact Nat.mul_lt_mul_of_pos_right hhigh (Nat.two_pow_pos k)

theorem log2_div_two_pow {m k : Nat} (hk : k ≤ m.log2) (hm : m ≠ 0) :
    (m / 2 ^ k).log2 = m.log2 - k := by
  have hpos : m / 2 ^ k ≠ 0 :=
    (Nat.div_pos ((Nat.pow_le_pow_right two_pos hk).trans (Nat.log2_self_le hm))
      (Nat.two_pow_pos k)).ne'
  rw [Nat.log2_eq_iff hpos]
  constructor
  · rw [Nat.le_div_iff_mul_le (Nat.two_pow_pos k), ← Nat.pow_add, Nat.sub_add_cancel hk]
    exact Nat.log2_self_le hm
  · rw [Nat.div_lt_iff_lt_mul (Nat.two_pow_pos k), ← Nat.pow_add]
    refine (Nat.lt_log2_self (n := m)).trans_le (Nat.pow_le_pow_right two_pos ?_)
    omega

namespace Unpacked

variable {s : UnpackedFloat.Sign} {m j k : Nat} {e : Int}

/-! ## Shifting -/

theorem mantissa_shiftRight (em : UnpackedFloat.ExtendedMantissa) (k : Nat) :
    (em >>> k).mantissa = em.mantissa / 2 ^ k := by
  induction k with
  | zero => exact (Nat.div_one _).symm
  | succ k ih =>
    change (em >>> k).mantissa / 2 = _
    rw [ih, Nat.div_div_eq_div_mul, Nat.pow_succ]

/-- Zeros are shifted out without a trace. -/
theorem shiftRight_exact (m k : Nat) :
    (⟨m * 2 ^ k, false, false⟩ : UnpackedFloat.ExtendedMantissa) >>> k = ⟨m, false, false⟩ := by
  induction k generalizing m with
  | zero =>
    rw [Nat.pow_zero, Nat.mul_one]
    rfl
  | succ k ih =>
    have hstep : (⟨m * 2 ^ (k + 1), false, false⟩ : UnpackedFloat.ExtendedMantissa) >>> (k + 1) =
        ((⟨m * 2 * 2 ^ k, false, false⟩ : UnpackedFloat.ExtendedMantissa) >>> k).shiftRightOne := by
      rw [Nat.mul_assoc, ← Nat.pow_succ']
      rfl
    rw [hstep, ih]
    simp [UnpackedFloat.ExtendedMantissa.shiftRightOne]

theorem roundedMantissa_cases (em : UnpackedFloat.ExtendedMantissa) :
    em.roundedMantissa = em.mantissa ∨ em.roundedMantissa = em.mantissa + 1 := by
  obtain ⟨m, r, t⟩ := em
  cases r <;> cases t <;>
    simp [UnpackedFloat.ExtendedMantissa.roundedMantissa, UnpackedFloat.ExtendedMantissa.accuracy,
      UnpackedFloat.Accuracy.roundToNearestEven]
  omega

theorem targetExponent_eq (hm : m.log2 = 52 + j) (he : -1074 ≤ e + j) :
    Format.binary64.targetExponent (totalExponent m e) = e + j := by
  simp only [Format.targetExponent, totalExponent, Format.mantissaBits, Format.minExponent, hm]
  omega

/-- All digits but the first 53 are shifted out. -/
theorem shiftToTargetExponent_eq (hm : m.log2 = 52 + j) (he : -1074 ≤ e + j) :
    UnpackedFloat.shiftToTargetExponent .binary64 m e .exact =
      ((⟨m, false, false⟩ : UnpackedFloat.ExtendedMantissa) >>> j, e + j) := by
  have hshift : (e + (j : Int) - e).toNat = j := by omega
  simp only [UnpackedFloat.shiftToTargetExponent, UnpackedFloat.shiftToExponent,
    targetExponent_eq hm he, hshift]
  rfl

/-! ## Rounding -/

theorem finite_congr {s : UnpackedFloat.Sign} {m m' : Nat} {e e' : Int} (hm : m = m') (he : e = e')
    (h : 0 < m) : UnpackedFloat.finite s m e h = .finite s m' e' (hm ▸ h) := by
  subst hm he
  rfl

/-- What has 53 digits behind the zeros is not rounded. -/
theorem roundWithAccuracy_exact (hm : m.log2 = 52) (hpos : 0 < m) (he : -1074 ≤ e + j) :
    UnpackedFloat.roundWithAccuracy .binary64 s (m * 2 ^ j) e .exact =
      .finite s m (e + j) hpos := by
  have hlog : (m * 2 ^ j).log2 = 52 + j := by rw [log2_mul_two_pow hpos.ne', hm]
  have hlog' : m.log2 = 52 + 0 := hm
  have he' : -1074 ≤ e + (j : Int) + (0 : Nat) := by omega
  have hround : (⟨m, false, false⟩ : UnpackedFloat.ExtendedMantissa).roundedMantissa = m := rfl
  have hnone : ((⟨m, false, false⟩ : UnpackedFloat.ExtendedMantissa) >>> 0).mantissa = m := rfl
  simp only [UnpackedFloat.roundWithAccuracy, shiftToTargetExponent_eq hlog he, shiftRight_exact,
    hround, shiftToTargetExponent_eq hlog' he', hnone]
  rw [dif_neg hpos.ne']
  exact finite_congr rfl (by omega) _

/-- The float lies between a power of two and the next. -/
def InBinade (u : UnpackedFloat) (k : Int) : Prop :=
  ∃ s m e h, u = .finite s m e h ∧ m.log2 = 52 ∧ e + 52 = k

theorem roundWithAccuracy_binade (hm : m.log2 = 52 + j) (he : -1074 ≤ e + j) :
    InBinade (UnpackedFloat.roundWithAccuracy .binary64 s m e .exact) (m.log2 + e) ∨
      InBinade (UnpackedFloat.roundWithAccuracy .binary64 s m e .exact) (m.log2 + e + 1) := by
  have hne : m ≠ 0 := by
    rintro rfl
    rw [Nat.log2_zero] at hm
    omega
  have hlog : (m / 2 ^ j).log2 = 52 := by rw [log2_div_two_pow (by omega) hne]; omega
  have hbounds := (Nat.log2_eq_iff (by rintro h; simp [h] at hlog)).mp hlog
  have hmantissa := mantissa_shiftRight ⟨m, false, false⟩ j
  have hcases := roundedMantissa_cases ((⟨m, false, false⟩ : UnpackedFloat.ExtendedMantissa) >>> j)
  rw [hmantissa] at hcases
  generalize hr :
    ((⟨m, false, false⟩ : UnpackedFloat.ExtendedMantissa) >>> j).roundedMantissa = r at hcases
  have hround (i : Nat) (hi : r.log2 = 52 + i) :
      InBinade (UnpackedFloat.roundWithAccuracy .binary64 s m e .exact) (m.log2 + e + i) := by
    have hrne : r ≠ 0 := by
      rintro rfl
      rw [Nat.log2_zero] at hi
      omega
    have hfinal := mantissa_shiftRight ⟨r, false, false⟩ i
    have hlast : (r / 2 ^ i).log2 = 52 := by rw [log2_div_two_pow (by omega) hrne]; omega
    have hnonzero : r / 2 ^ i ≠ 0 := by
      intro h
      simp [h] at hlast
    have he' : -1074 ≤ e + (j : Int) + (i : Int) := by omega
    simp only [UnpackedFloat.roundWithAccuracy, shiftToTargetExponent_eq hm he, hr,
      shiftToTargetExponent_eq hi he']
    have hnonzero' : ((⟨r, false, false⟩ : UnpackedFloat.ExtendedMantissa) >>> i).mantissa ≠ 0 := by
      rwa [hfinal]
    rw [dif_neg hnonzero']
    refine ⟨s, _, _, _, rfl, ?_, by omega⟩
    rw [hfinal]
    exact hlast
  -- Only the carry out of 53 ones needs another digit.
  by_cases hcarry : r = 2 ^ 53
  · exact .inr (hround 1 (by rw [hcarry, Nat.log2_two_pow]))
  · have hlast : r.log2 = 52 + 0 := by
      dsimp only at hcases
      rw [Nat.log2_eq_iff (by omega)]
      omega
    have h := hround 0 hlast
    rw [Nat.cast_zero, add_zero] at h
    exact .inl h

/-- Fewer digits than a float has are filled up with zeros. -/
theorem round_exact (hm : m ≠ 0) (hlog : m.log2 ≤ 52) (he : -1022 ≤ m.log2 + e) :
    UnpackedFloat.round .binary64 s m e =
      .finite s (m * 2 ^ (52 - m.log2)) (e - (52 - m.log2 : Nat))
        (Nat.mul_pos (Nat.pos_of_ne_zero hm) (Nat.two_pow_pos _)) := by
  have htarget : Format.binary64.targetExponent (totalExponent m e) = e - (52 - m.log2 : Nat) := by
    simp only [Format.targetExponent, totalExponent, Format.mantissaBits, Format.minExponent]
    omega
  have hshift : (e - (e - (52 - m.log2 : Nat))).toNat = 52 - m.log2 := by omega
  have hfull : (m * 2 ^ (52 - m.log2)).log2 = 52 := by rw [log2_mul_two_pow hm]; omega
  have hexact := roundWithAccuracy_exact (s := s) (j := 0) (e := e - (52 - m.log2 : Nat)) hfull
    (Nat.mul_pos (Nat.pos_of_ne_zero hm) (Nat.two_pow_pos _)) (by omega)
  rw [Nat.pow_zero, Nat.mul_one] at hexact
  simp only [UnpackedFloat.round, UnpackedFloat.decreaseExponent, htarget, hshift, Nat.shiftLeft_eq]
  rw [hexact]
  exact finite_congr rfl (by omega) _

theorem round_binade (hm : m ≠ 0) (he : -1022 ≤ m.log2 + e) :
    InBinade (UnpackedFloat.round .binary64 s m e) (m.log2 + e) ∨
      InBinade (UnpackedFloat.round .binary64 s m e) (m.log2 + e + 1) := by
  by_cases hlog : m.log2 ≤ 52
  · refine .inl ⟨s, _, _, _, round_exact hm hlog he, ?_, by omega⟩
    rw [log2_mul_two_pow hm]
    omega
  · obtain ⟨j, hj⟩ : ∃ j, m.log2 = 52 + j := ⟨m.log2 - 52, by omega⟩
    have htarget := targetExponent_eq hj (show -1074 ≤ e + j by omega)
    have hshift : (e - (e + (j : Int))).toNat = 0 := by omega
    simp only [UnpackedFloat.round, UnpackedFloat.decreaseExponent, htarget, hshift,
      Nat.shiftLeft_zero, Nat.cast_zero, sub_zero]
    exact roundWithAccuracy_binade hj (by omega)

/-! ## Packing -/

theorem toNat_implicit {f : BitVec 52} : (1#1 ++ f).toNat = 2 ^ 52 + f.toNat := by
  rw [BitVec.toNat_append, ← Nat.shiftLeft_add_eq_or_of_lt f.isLt]
  simp [Nat.shiftLeft_eq]

theorem pack_normal (hm : m.log2 = 52) (hpos : 0 < m) (he : -1074 ≤ e) (he' : e ≤ 971) :
    UnpackedFloat.pack .binary64 (.finite s m e hpos) =
      UnpackedFloat.packComponents .binary64 s (BitVec.ofNat 11 (e + 1075).toNat)
        (BitVec.ofNat 52 m) := by
  have hbias : Format.binary64.exponentBias = 1023 := rfl
  have hbits : Format.binary64.mantissaBits = 53 := rfl
  have hexp : (e + (1023 : Nat) + (52 : Nat)).toNat = (e + 1075).toNat := by omega
  simp only [UnpackedFloat.pack, hbias, hbits, hm, hexp]
  rw [if_neg (by omega), if_pos trivial]

/-- A float is packed and unpacked again as it was. -/
theorem unpack_pack_normal (hm : m.log2 = 52) (hpos : 0 < m) (he : -1074 ≤ e) (he' : e ≤ 971) :
    UnpackedFloat.unpack .binary64 (UnpackedFloat.pack .binary64 (.finite s m e hpos)) =
      .finite s m e hpos := by
  have hbounds := (Nat.log2_eq_iff hpos.ne').mp hm
  have hexp : (BitVec.ofNat 11 (e + 1075).toNat).toNat = (e + 1075).toNat := by
    rw [BitVec.toNat_ofNat, Nat.mod_eq_of_lt (by omega)]
  have hmax : BitVec.ofNat 11 (e + 1075).toNat ≠ -1#11 := by
    intro h
    have := congrArg BitVec.toNat h
    rw [hexp] at this
    simp at this
    omega
  have hzero : BitVec.ofNat 11 (e + 1075).toNat ≠ 0#11 := by
    intro h
    have := congrArg BitVec.toNat h
    rw [hexp] at this
    simp at this
    omega
  have hmantissa : (BitVec.ofNat 52 m).toNat = m - 2 ^ 52 := by
    rw [BitVec.toNat_ofNat]
    omega
  rw [pack_normal hm hpos he he']
  simp only [UnpackedFloat.unpack, UnpackedFloat.unpackMantissa_packComponents,
    UnpackedFloat.unpackExponent_packComponents, unpackSign_packComponents, ofBitVec_toBitVec]
  rw [if_neg hmax, if_neg hzero]
  refine finite_congr ?_ ?_ _
  · rw [toNat_implicit, hmantissa]
    omega
  · have hbias : (Format.binary64.exponentBias : Int) = 1023 := rfl
    rw [hexp, hbias]
    omega

end Unpacked

end TransportDeck
