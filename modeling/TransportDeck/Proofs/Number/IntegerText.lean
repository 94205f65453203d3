import Mathlib.Data.List.TakeWhile
import TransportDeck.Node.NumberStyle
import TransportDeck.Proofs.Number.Integers
import TransportDeck.Proofs.Number.Whole
import TransportDeck.Proofs.Output.Lines

/-!
# Whole floats as text

A float that is an integer is written with the digits of the integer, in whatever style it is
written, and a text that spells an integer is read as that integer.
-/

namespace TransportDeck

open Float.Model Unpacked

/-! ## Bits -/

section

variable (x : Float)

/-- The bits of a float. -/
def bitsOf : BitVec Format.binary64.numBits := x.toModel.toBits.toBitVec

/-- The fraction of a float, taken from its bits by division. -/
theorem fraction_bits : x.toBits.toNat % Decimal.twoTo 52 =
    (UnpackedFloat.unpackMantissa (bitsOf x)).toNat := by
  have h := BitVec.extractLsb_toNat 51 0 (bitsOf x)
  rw [Nat.shiftRight_zero] at h
  exact h.symm

/-- The exponent of a float, taken from its bits by division. -/
theorem exponent_bits : x.toBits.toNat / Decimal.twoTo 52 % Decimal.twoTo 11 =
    (UnpackedFloat.unpackExponent (bitsOf x)).toNat := by
  have h := BitVec.extractLsb_toNat 62 52 (bitsOf x)
  rw [Nat.shiftRight_eq_div_pow] at h
  exact h.symm

/-- The sign of a float is that of its first bit. -/
theorem isNegative_bits : Decimal.isNegative x = true ↔
    UnpackedFloat.Sign.ofBitVec (UnpackedFloat.unpackSign (bitsOf x)) = .negative := by
  have h : (UnpackedFloat.unpackSign (bitsOf x)).toNat = x.toBits.toNat / 2 ^ 63 % 2 := by
    have h := BitVec.extractLsb_toNat 63 63 (bitsOf x)
    rwa [Nat.shiftRight_eq_div_pow] at h
  have hlt : x.toBits.toNat < 2 ^ 64 := (bitsOf x).isLt
  have htwo : Decimal.twoTo 63 = 2 ^ 63 := rfl
  unfold Decimal.isNegative UnpackedFloat.Sign.ofBitVec
  rw [decide_eq_true_iff, htwo]
  split_ifs with hzero
  · rw [hzero] at h
    simp only [BitVec.toNat_zero] at h
    constructor
    · intro hge
      omega
    · intro h
      cases h
  · have hne : (UnpackedFloat.unpackSign (bitsOf x)).toNat ≠ 0 := fun heq ↦
      hzero (BitVec.eq_of_toNat_eq heq)
    simp only [iff_true]
    omega

end

variable {x : Float} {s : UnpackedFloat.Sign} {n : Nat} {z : Int}

/-- The exact value of a whole float. -/
theorem ofFloat_of_isWhole (h : IsWhole (unpacked x) s n) :
    (Decimal.isNegative x = true ↔ s = .negative) ∧
      (n = 0 ∧ (Decimal.Binary.ofFloat x).mantissa = 0 ∨
        (Decimal.Binary.ofFloat x).mantissa.log2 = 52 ∧
          (Decimal.Binary.ofFloat x).mantissa * 2 ^ (Decimal.Binary.ofFloat x).exponent.toNat =
            n * 2 ^ (-(Decimal.Binary.ofFloat x).exponent).toNat) := by
  have hbias : (Format.binary64.exponentBias : Int) = 1023 := rfl
  have hbits : (Format.binary64.mantissaBitsWithoutImplicit : Int) = 52 := rfl
  have hmlt : (UnpackedFloat.unpackMantissa (bitsOf x)).toNat < 2 ^ 52 :=
    (UnpackedFloat.unpackMantissa (bitsOf x)).isLt
  have hu : unpacked x = UnpackedFloat.unpack .binary64 (bitsOf x) := rfl
  rw [hu, UnpackedFloat.unpack] at h
  simp only [isNegative_bits, Decimal.Binary.ofFloat, fraction_bits, exponent_bits]
  split_ifs at h with hmax hinfinite hzero hnone
  · cases h
  · cases h
  · cases h
    rw [hzero, hnone]
    exact ⟨Iff.rfl, .inl ⟨rfl, rfl⟩⟩
  · -- A mantissa without the implicit bit is too short.
    cases h with
    | finite hlog =>
      have hpos : (UnpackedFloat.unpackMantissa (bitsOf x)).toNat ≠ 0 := by
        intro h0
        rw [h0, Nat.log2_zero] at hlog
        omega
      have := (Nat.log2_lt hpos).mpr hmlt
      omega
  · cases h with
    | finite hlog heq =>
      have hne : (UnpackedFloat.unpackExponent (bitsOf x)).toNat ≠ 0 := fun h0 ↦
        hzero (BitVec.eq_of_toNat_eq h0)
      rw [if_neg (by simpa using hne)]
      have hexp : ((UnpackedFloat.unpackExponent (bitsOf x)).toNat : Int) -
          (Format.binary64.exponentBias + Format.binary64.mantissaBitsWithoutImplicit) =
            (UnpackedFloat.unpackExponent (bitsOf x)).toNat - 1075 := by omega
      rw [toNat_implicit, Nat.add_comm] at hlog heq
      rw [hexp] at heq
      exact ⟨Iff.rfl, .inr ⟨hlog, heq⟩⟩

/-! ## Whole parts -/

namespace Decimal.Binary

variable {b : Binary}

/-- The value is the natural number `n`. -/
structure IsNat (b : Binary) (n : Nat) : Prop where
  /-- There is nothing behind the point to the right of which digits are dropped. -/
  eq : b.mantissa * 2 ^ b.exponent.toNat = n * 2 ^ (-b.exponent).toNat

/-- The whole part of a natural number is that number. -/
theorem IsNat.whole_eq (h : b.IsNat n) : b.whole = n := by
  obtain ⟨m, e⟩ := b
  cases e with
  | ofNat k => simpa [whole, twoTo] using h.eq
  | negSucc k =>
    have h : m * 2 ^ 0 = n * 2 ^ (k + 1) := h.eq
    rw [Nat.pow_zero, Nat.mul_one] at h
    change m / 2 ^ (k + 1) = n
    rw [h, Nat.mul_div_cancel _ (Nat.two_pow_pos _)]

/-- The nearest whole number of a natural number is that number. -/
theorem IsNat.nearest_eq (h : b.IsNat n) : b.nearest = n := by
  obtain ⟨m, e⟩ := b
  cases e with
  | ofNat k => simpa [nearest, twoTo] using h.eq
  | negSucc k =>
    have h : m * 2 ^ 0 = n * 2 ^ (k + 1) := h.eq
    rw [Nat.pow_zero, Nat.mul_one] at h
    change (2 * m + 2 ^ (k + 1)) / 2 ^ (k + 2) = n
    have hdouble : 2 * m = n * 2 ^ (k + 2) := by rw [h]; ring
    rw [hdouble, Nat.add_comm, Nat.add_mul_div_right _ _ (Nat.two_pow_pos _),
      Nat.div_eq_of_lt (Nat.pow_lt_pow_right (by decide) (by omega)), Nat.zero_add]

/-- A natural number as a fraction has the denominator as a factor of its numerator. -/
theorem IsNat.ratio_eq (h : b.IsNat n) : 0 < b.ratio.den ∧ b.ratio.num = n * b.ratio.den := by
  obtain ⟨m, e⟩ := b
  cases e with
  | ofNat k => simpa [ratio, twoTo] using h.eq
  | negSucc k =>
    have h : m * 2 ^ 0 = n * 2 ^ (k + 1) := h.eq
    rw [Nat.pow_zero, Nat.mul_one] at h
    exact ⟨Nat.two_pow_pos _, h⟩

/-- A binary that says that it is whole is the natural number in its whole part. -/
theorem isNat_whole (h : b.isWhole = true) : b.IsNat b.whole := by
  obtain ⟨m, e⟩ := b
  cases e with
  | ofNat k => exact ⟨by simp [whole, twoTo]⟩
  | negSucc k =>
    have h : m % 2 ^ (k + 1) = 0 := eq_of_beq h
    refine ⟨?_⟩
    change m * 2 ^ 0 = m / 2 ^ (k + 1) * 2 ^ (k + 1)
    rw [Nat.pow_zero, Nat.mul_one, Nat.div_mul_cancel (Nat.dvd_of_mod_eq_zero h)]

/-- Short of the implicit bit no number but zero is whole. -/
theorem eq_zero_of_isWhole {m j k : Nat} (hm : m < 2 ^ j) (hj : j ≤ k)
    (h : isWhole ⟨m, .negSucc k⟩ = true) : m = 0 := by
  have h : m % 2 ^ (k + 1) = 0 := eq_of_beq h
  rwa [Nat.mod_eq_of_lt (hm.trans (Nat.pow_lt_pow_right (by decide) (Nat.lt_succ_of_le hj)))] at h

end Decimal.Binary

/-- A whole float is an integer. -/
theorem exists_holdsInt (h : Number.isWhole x = true) : ∃ z, HoldsInt x z := by
  obtain ⟨hfinite, hwhole⟩ := (Bool.and_eq_true ..).mp h
  change (unpacked x).isFinite = true at hfinite
  suffices h : ∃ s n, IsWhole (unpacked x) s n by
    obtain ⟨s, n, h⟩ := h
    refine ⟨s.apply n, s, ?_, ?_⟩
    · cases s <;> simpa [UnpackedFloat.Sign.apply] using h
    · cases s <;> simp [UnpackedFloat.Sign.apply]
  have hbias : (Format.binary64.exponentBias : Int) = 1023 := rfl
  have hbits : (Format.binary64.mantissaBitsWithoutImplicit : Int) = 52 := rfl
  have hmlt : (UnpackedFloat.unpackMantissa (bitsOf x)).toNat < 2 ^ 52 :=
    (UnpackedFloat.unpackMantissa (bitsOf x)).isLt
  have hu : unpacked x = UnpackedFloat.unpack .binary64 (bitsOf x) := rfl
  rw [hu, UnpackedFloat.unpack] at hfinite ⊢
  simp only [Decimal.Binary.ofFloat, fraction_bits, exponent_bits] at hwhole
  split_ifs at hfinite ⊢ with hmax hinfinite hzero hnone
  · cases hfinite
  · cases hfinite
  · exact ⟨_, 0, .zero⟩
  · rw [hzero] at hwhole
    have hm := Decimal.Binary.eq_zero_of_isWhole (k := 1073) hmlt (by decide) hwhole
    exact absurd (BitVec.eq_of_toNat_eq hm) hnone
  · have hne : (UnpackedFloat.unpackExponent (bitsOf x)).toNat ≠ 0 := fun h0 ↦
      hzero (BitVec.eq_of_toNat_eq h0)
    rw [if_neg (by simpa using hne)] at hwhole
    obtain ⟨n, hnat⟩ : ∃ n, Decimal.Binary.IsNat _ n := ⟨_, Decimal.Binary.isNat_whole hwhole⟩
    have hexp : ((UnpackedFloat.unpackExponent (bitsOf x)).toNat : Int) -
        (Format.binary64.exponentBias + Format.binary64.mantissaBitsWithoutImplicit) =
          (UnpackedFloat.unpackExponent (bitsOf x)).toNat - 1075 := by omega
    refine ⟨_, n, .finite ?_ ?_⟩
    · rw [toNat_implicit, Nat.log2_eq_iff (by omega)]
      omega
    · rw [toNat_implicit, Nat.add_comm, hexp]
      exact hnat.eq

/-- An integer as a float has the integer for its exact value. -/
theorem HoldsInt.isNat (h : HoldsInt x z) : (Decimal.Binary.ofFloat x).IsNat z.natAbs := by
  obtain ⟨s, h, -⟩ := h
  obtain ⟨-, ⟨hz, hm⟩ | ⟨-, heq⟩⟩ := ofFloat_of_isWhole h
  · exact ⟨by rw [hz, hm]; simp⟩
  · exact ⟨heq⟩

/-- The sign of a float that holds an integer other than zero is that of the integer. -/
theorem HoldsInt.isNegative (h : HoldsInt x z) (hz : z ≠ 0) :
    Decimal.isNegative x = decide (z < 0) := by
  obtain ⟨s, h, hs⟩ := h
  rw [Bool.eq_iff_iff, (ofFloat_of_isWhole h).1, decide_eq_true_iff]
  cases s with
  | positive =>
    have hs : (z.natAbs : Int) = z := hs
    exact iff_of_false nofun (by omega)
  | negative =>
    have hs : -(z.natAbs : Int) = z := hs
    exact iff_of_true rfl (by omega)

theorem HoldsInt.isFinite (h : HoldsInt x z) : x.isFinite = true := by
  obtain ⟨s, h, -⟩ := h
  exact h.status.1

theorem HoldsInt.isNaN (h : HoldsInt x z) : x.isNaN = false := by
  obtain ⟨s, h, -⟩ := h
  exact h.status.2.1

theorem HoldsInt.isInf (h : HoldsInt x z) : x.isInf = false := by
  obtain ⟨s, h, -⟩ := h
  exact h.status.2.2

/-- The whole number nearest to an integer is that integer. -/
theorem HoldsInt.nearestWhole (h : HoldsInt x z) : HoldsInt (Decimal.nearestWhole x) z := by
  unfold Decimal.nearestWhole
  rw [if_pos h.isFinite, h.isNat.nearest_eq]
  dsimp only
  by_cases hzero : z = 0
  · subst hzero
    split_ifs
    · exact (holdsInt_ofNat (n := 0) (by decide)).neg
    · exact holdsInt_ofNat (n := 0) (by decide)
  · rw [h.isNegative hzero]
    split_ifs with hneg
    · have := (holdsInt_ofNat_of_isExact h.isExact).neg
      rwa [show -(z.natAbs : Int) = z by simp at hneg; omega] at this
    · have := holdsInt_ofNat_of_isExact h.isExact
      rwa [show (z.natAbs : Int) = z by simp at hneg; omega] at this

/-- The integer of a float is held within the 64-bit range. -/
theorem HoldsInt.truncate (h : HoldsInt x z) :
    Number.truncate x = max Number.minInt (min Number.maxInt z) := by
  unfold Number.truncate
  rw [if_neg (by rw [h.isNaN]; exact Bool.false_ne_true), h.isNat.whole_eq]
  dsimp only
  have hsigned : (if Decimal.isNegative x then -(z.natAbs : Int) else z.natAbs) = z := by
    by_cases hzero : z = 0
    · subst hzero
      split_ifs <;> rfl
    · rw [h.isNegative hzero]
      split_ifs with hneg <;> simp at hneg <;> omega
  rw [hsigned]

/-- A float that holds an integer is below zero if the integer is. -/
theorem HoldsInt.isBelowZero (h : HoldsInt x z) : Number.isBelowZero x = decide (z < 0) := by
  unfold Number.isBelowZero
  by_cases hzero : z = 0
  · subst hzero
    have hbeq : (x == 0) = true := h.beq (holdsInt_ofNat (n := 0) (by decide))
    simp [bne, hbeq]
  · have hbeq : (x == 0) = false :=
      Bool.eq_false_iff.mpr fun hbeq ↦
        hzero (h.eq_of_beq (holdsInt_ofNat (n := 0) (by decide)) hbeq)
    rw [h.isNegative hzero, bne, hbeq, Bool.not_false, Bool.and_true]

/-! ## General notation -/

namespace Decimal

/-- Nothing is rounded where the division leaves no rest. -/
theorem roundDiv_mul (n : Nat) {den : Nat} (h : 0 < den) : roundDiv (n * den) den = n := by
  unfold roundDiv
  rw [Nat.mul_div_cancel _ h, Nat.mul_mod_left]
  dsimp only
  rw [if_neg (by simp; omega)]

/-- Multiplying by a power of ten puts zeros behind the digits. -/
theorem toDigits_mul_tenTo (hn : 0 < n) (k : Nat) :
    Nat.toDigits 10 (n * 10 ^ k) = Nat.toDigits 10 n ++ List.replicate k '0' := by
  induction k with
  | zero => simp
  | succ k ih =>
    have hstep := Nat.toDigits_append_toDigits (b := 10) (n := n * 10 ^ k) (d := 0) (by decide)
      (Nat.mul_pos hn (Nat.pow_pos (by decide))) (by decide)
    have hzero : Nat.toDigits 10 0 = ['0'] := rfl
    have hmul : n * 10 ^ (k + 1) = 10 * (n * 10 ^ k) + 0 := by ring
    rw [hmul, ← hstep, ih, hzero, List.append_assoc, List.replicate_succ']

/-- A natural number is printed with as many zeros behind the point as there are places. -/
theorem withPoint_mul_tenTo (hn : 0 < n) (k : Nat) : withPoint k (n * tenTo k) =
    if k = 0 then digits n else digits n ++ '.' :: List.replicate k '0' := by
  have hdigits : digits (n * tenTo k) = digits n ++ List.replicate k '0' := toDigits_mul_tenTo hn k
  have hpos : 0 < (digits n).length := Nat.length_toDigits_pos
  unfold withPoint
  simp only [beq_iff_eq]
  split_ifs with hk
  · rw [hdigits, hk, List.replicate_zero, List.append_nil]
  · have hnone : k + 1 - (digits n ++ List.replicate k '0').length = 0 := by
      rw [List.length_append, List.length_replicate]
      omega
    have hlength : (digits n ++ List.replicate k '0').length - k = (digits n).length := by
      rw [List.length_append, List.length_replicate]
      omega
    rw [digitsTo, hdigits, hnone, List.replicate_zero, List.nil_append, hlength, List.take_left,
      List.drop_left]

/-- A ratio that is a natural number. -/
structure Ratio.IsNat (r : Ratio) (n : Nat) : Prop where
  den_pos : 0 < r.den
  num_eq : r.num = n * r.den

namespace Ratio.IsNat

variable {r : Ratio}

/-- A natural number is scaled by a power of ten without rounding. -/
theorem round_scale (h : r.IsNat n) (k : Nat) : (r.scale k).round = n * tenTo k := by
  have hnum : r.num * tenTo k = n * tenTo k * r.den := by rw [h.num_eq]; ring
  change roundDiv (r.num * tenTo k) r.den = _
  rw [hnum, roundDiv_mul _ h.den_pos]

/-- The magnitude of a natural number is told by the number of its digits. -/
theorem magnitude_eq (h : r.IsNat n) (hn : 0 < n) :
    r.magnitude = ((digits n).length : Int) - 1 := by
  unfold magnitude
  have hge : r.num ≥ r.den := by
    rw [h.num_eq]
    exact Nat.le_mul_of_pos_left _ hn
  rw [if_pos hge, h.num_eq, Nat.mul_div_cancel _ h.den_pos]

/-- The exponent in scientific form is the magnitude, if the digits fit into the mantissa. -/
theorem exponent_scientific (h : r.IsNat n) (hn : 0 < n) {places : Nat}
    (hshort : n < 10 ^ (places + 1)) :
    (r.scientific places).exponent = ((digits n).length : Int) - 1 := by
  have hlength : (digits n).length ≤ places + 1 :=
    (Nat.length_toDigits_le_iff (by decide) (by omega)).mpr hshort
  have hbound : n < 10 ^ (digits n).length :=
    (Nat.length_toDigits_le_iff (by decide) Nat.length_toDigits_pos).mp le_rfl
  have hnum : r.num ≠ 0 := by
    rw [h.num_eq]
    exact Nat.mul_ne_zero hn.ne' h.den_pos.ne'
  have hshift : (places : Int) - (((digits n).length : Int) - 1) =
      ((places + 1 - (digits n).length : Nat) : Int) := by omega
  have hfull : n * tenTo (places + 1 - (digits n).length) ≠ tenTo (places + 1) := by
    have hlt : n * 10 ^ (places + 1 - (digits n).length) <
        10 ^ (digits n).length * 10 ^ (places + 1 - (digits n).length) :=
      Nat.mul_lt_mul_of_pos_right hbound (Nat.pow_pos (by decide))
    rw [← Nat.pow_add, Nat.add_sub_cancel' hlength] at hlt
    exact hlt.ne
  unfold scientific
  rw [if_neg (by simpa using hnum), h.magnitude_eq hn]
  dsimp only
  rw [hshift, h.round_scale, if_neg (by simpa using hfull)]

end Ratio.IsNat

end Decimal

namespace Number

open Decimal

/-- Without a point no zeros are stripped. -/
theorem stripZeros_digits (n : Nat) : stripZeros (digits n) = digits n := by
  unfold stripZeros
  rw [if_neg]
  rw [List.contains_iff_mem]
  intro hdot
  have := isDigit_of_mem_toDigits _ hdot
  cases this

/-- The zeros behind a point are stripped, and the point with them. -/
theorem stripZeros_point (n k : Nat) :
    stripZeros (digits n ++ '.' :: List.replicate k '0') = digits n := by
  have hreverse : (digits n ++ '.' :: List.replicate k '0').reverse =
      List.replicate k '0' ++ ('.' :: (digits n).reverse) := by simp
  have hzeros : (List.replicate k '0' ++ ('.' :: (digits n).reverse)).dropWhile (· == '0') =
      '.' :: (digits n).reverse := by
    rw [List.dropWhile_append_of_pos (by simp), List.dropWhile_cons_of_neg (by decide)]
  have hlast : (digits n).reverse.dropWhile (· == '.') = (digits n).reverse := by
    obtain ⟨c, cs, hcs⟩ := List.exists_cons_of_ne_nil
      (List.reverse_ne_nil_iff.mpr (Nat.toDigits_ne_nil (n := n) (b := 10)))
    have hmem : c ∈ digits n := List.mem_reverse.mp (hcs ▸ List.mem_cons_self)
    have hdot : ¬(c == '.') = true := by
      intro hdot
      have hdigit := isDigit_of_mem_toDigits _ hmem
      rw [beq_iff_eq.mp hdot] at hdigit
      cases hdigit
    have hcs : (digits n).reverse = c :: cs := hcs
    rw [hcs]
    exact List.dropWhile_cons_of_neg hdot
  unfold stripZeros
  rw [if_pos (by simp), hreverse, hzeros, List.dropWhile_cons_of_pos (by decide), hlast,
    List.reverse_reverse]

/-- A natural number of no more digits than the precision is written with its digits. -/
theorem generalDigits_of_isNat {r : Ratio} (h : r.IsNat n) {places : Nat}
    (hshort : n < 10 ^ (places + 1)) :
    generalDigits r (places + 1) = String.ofList (digits n) := by
  unfold generalDigits
  obtain rfl | hn := Nat.eq_zero_or_pos n
  · have hnum : r.num = 0 := by rw [h.num_eq, Nat.zero_mul]
    rw [if_pos (by simpa using hnum)]
    rfl
  have hnum : r.num ≠ 0 := by
    rw [h.num_eq]
    exact Nat.mul_ne_zero hn.ne' h.den_pos.ne'
  have hlength : (digits n).length ≤ places + 1 :=
    (Nat.length_toDigits_le_iff (by decide) (by omega)).mpr hshort
  have hpos : 0 < (digits n).length := Nat.length_toDigits_pos
  rw [if_neg (by simpa using hnum)]
  dsimp only
  rw [Nat.add_sub_cancel, h.exponent_scientific hn hshort, if_pos (by simp; omega)]
  have hplaces : (((places + 1 : Nat) : Int) - 1 - (((digits n).length : Int) - 1)).toNat =
      places + 1 - (digits n).length := by omega
  rw [hplaces, Ratio.fixed, h.round_scale, withPoint_mul_tenTo hn]
  split_ifs
  · rw [stripZeros_digits]
  · rw [stripZeros_point]

end Number

/-- A small integer without a style is written as it is. -/
theorem HoldsInt.renderGeneral (h : HoldsInt x z) {places : Nat}
    (hz : z.natAbs < 10 ^ (places + 1)) :
    Number.renderGeneral x (places + 1) 0 .negativeOnly = toString z := by
  have hspecial : Number.special? x = none := by
    unfold Number.special?
    simp only [h.isNaN, h.isInf, Bool.false_eq_true, ↓reduceIte]
  have hratio : (Number.magnitude x).IsNat z.natAbs := ⟨h.isNat.ratio_eq.1, h.isNat.ratio_eq.2⟩
  have hprecision : max (places + 1) 1 = places + 1 := by omega
  have hdigits := Number.generalDigits_of_isNat hratio hz
  have hrendered : Number.renderGeneral x (places + 1) 0 .negativeOnly =
      Number.renderInt z 0 .negativeOnly := by
    rw [Number.renderGeneral, hspecial, hprecision, hdigits, h.isBelowZero, Number.renderInt,
      Nat.toString_eq_ofList_toDigits]
    rfl
  rw [hrendered, Number.renderInt_plain]

/-- With the style of an integer the float is written as the integer, held within the 64-bit
range. -/
theorem HoldsInt.renderReal_whole (h : HoldsInt x z) {style : NumberStyle}
    (hstyle : style.whole = true) (t : Tolerance) : style.renderReal t x =
      Number.renderInt (max Number.minInt (min Number.maxInt z)) style.zeroWidth style.sign := by
  have hnearest := h.nearestWhole
  have hclose : t.close (Decimal.nearestWhole x) x = true := by
    rw [Tolerance.close, if_pos (hnearest.beq h)]
  rw [NumberStyle.renderReal, hstyle, hclose, Bool.and_self, if_pos rfl, hnearest.truncate]

/-- A small integer is printed in plain style as the integer itself. -/
theorem HoldsInt.renderReal_plain (h : HoldsInt x z) (hz : z.natAbs < 10 ^ 5) (t : Tolerance) :
    NumberStyle.plain.renderReal t x = toString z :=
  h.renderGeneral hz

/-! ## Integers read -/

namespace Number

/-- An optional sign and digits. -/
structure IsIntegerText (cs : List Char) : Prop where
  nonempty : (Decimal.readSign cs).2 ≠ []
  allDigits : ∀ c ∈ (Decimal.readSign cs).2, c.isDigit = true

instance : DecidablePred IsIntegerText := fun cs ↦
  decidable_of_iff ((Decimal.readSign cs).2 ≠ [] ∧ (Decimal.readSign cs).2.all Char.isDigit = true)
    ⟨fun h ↦ ⟨h.1, List.all_eq_true.mp h.2⟩, fun h ↦ ⟨h.nonempty, List.all_eq_true.mpr h.allDigits⟩⟩

/-- What is read as an integer is a sign, which may be missing, and digits. -/
theorem isIntegerText_of_readInt? {text : String} {n : Int} (h : readInt? text = some n) :
    IsIntegerText text.toList := by
  unfold readInt? at h
  dsimp only at h
  by_cases hdigits :
      ((Decimal.readSign text.toList).2.isEmpty ||
      !(Decimal.readSign text.toList).2.all Char.isDigit) = true
  · rw [if_pos hdigits] at h
    cases h
  · rw [Bool.or_eq_true, not_or] at hdigits
    exact ⟨by simpa using hdigits.1, by simpa using hdigits.2⟩

/-- The integer that a text spells. -/
def integerOf (cs : List Char) : Int :=
  if (Decimal.readSign cs).1 then -(Decimal.natOfDigits (Decimal.readSign cs).2 : Int)
  else Decimal.natOfDigits (Decimal.readSign cs).2

variable {cs : List Char}

/-- A text starts with a sign, or it has none and counts as positive. -/
theorem readSign_cases (cs : List Char) : ∃ sgn, cs = sgn ++ (Decimal.readSign cs).2 ∧
    (sgn = ['-'] ∧ (Decimal.readSign cs).1 = true ∨
      (sgn = ['+'] ∨ sgn = []) ∧ (Decimal.readSign cs).1 = false) := by
  unfold Decimal.readSign
  split
  · exact ⟨['-'], rfl, .inl ⟨rfl, rfl⟩⟩
  · exact ⟨['+'], rfl, .inr ⟨.inl rfl, rfl⟩⟩
  · exact ⟨[], rfl, .inr ⟨.inr rfl, rfl⟩⟩

/-- An integer's text is read as a literal without a power of ten. -/
theorem IsIntegerText.readLiteral?_eq (h : IsIntegerText cs) : Decimal.readLiteral? cs =
    some ⟨(Decimal.readSign cs).1, Decimal.natOfDigits (Decimal.readSign cs).2, 0⟩ := by
  have htake : (Decimal.readSign cs).2.takeWhile Char.isDigit = (Decimal.readSign cs).2 :=
    List.takeWhile_eq_self_iff.mpr h.allDigits
  have hdrop : (Decimal.readSign cs).2.dropWhile Char.isDigit = [] :=
    List.dropWhile_eq_nil_iff.mpr h.allDigits
  unfold Decimal.readLiteral? Decimal.readUnsigned?
  dsimp only
  rw [htake, hdrop]
  simp [h.nonempty, Decimal.readExponent?]

/-- Up to 400 digits are read as the float nearest to them. -/
theorem toFloat_of_short {d : Nat} (hd : (Nat.toDigits 10 d).length ≤ 400) (negative : Bool) :
    (⟨negative, d, 0⟩ : Decimal.Literal).toFloat =
      if negative then -Float.ofNat d else Float.ofNat d := by
  by_cases hzero : d = 0
  · subst hzero
    cases negative <;> decide +kernel
  · have hsize : ¬(((Nat.toDigits 10 d).length : Int) + 0 > 400) := by omega
    have hsmall : ¬(((Nat.toDigits 10 d).length : Int) + 0 < -400) := by omega
    have hmul : d * Nat.pow 10 0 = d := Nat.mul_one d
    simp only [Decimal.Literal.toFloat, hsize, hsmall, decide_false, Bool.or_false,
      beq_iff_eq, hzero, if_false]
    rw [hmul]
    rfl

/-- More digits are infinite. -/
theorem toFloat_of_long {d : Nat} (hd : 400 < (Nat.toDigits 10 d).length) (negative : Bool) :
    (⟨negative, d, 0⟩ : Decimal.Literal).toFloat = if negative then -(1.0 / 0.0)
      else 1.0 / 0.0 := by
  have hzero : d ≠ 0 := by
    rintro rfl
    exact absurd hd (by decide)
  have hsize : ((Nat.toDigits 10 d).length : Int) + 0 > 400 := by omega
  have hsmall : ¬(((Nat.toDigits 10 d).length : Int) + 0 < -400) := by omega
  simp only [Decimal.Literal.toFloat, hsize, hsmall, decide_false, Bool.or_false,
    beq_iff_eq, hzero, if_false, if_true]

/-- Three binary digits are at most one decimal digit. -/
theorem length_toDigits_le {m a k c : Nat} (hm : m < 2 ^ a) (hc : a + k ≤ 3 * c) (hpos : 0 < c) :
    (Nat.toDigits 10 (m * 2 ^ k)).length ≤ c := by
  rw [Nat.length_toDigits_le_iff (by decide) hpos]
  calc m * 2 ^ k < 2 ^ a * 2 ^ k := Nat.mul_lt_mul_of_pos_right hm (Nat.two_pow_pos k)
    _ = 2 ^ (a + k) := (Nat.pow_add ..).symm
    _ ≤ 2 ^ (3 * c) := Nat.pow_le_pow_right two_pos hc
    _ = (2 ^ 3) ^ c := Nat.pow_mul ..
    _ ≤ 10 ^ c := Nat.pow_le_pow_left (by decide) c

/-- The numbers that can be held exactly have at most 400 digits. -/
theorem length_le_of_isExact (h : IsExact n) : (Nat.toDigits 10 n).length ≤ 400 := by
  obtain h | ⟨m, k, hlog, hk, rfl⟩ := h
  · simpa using length_toDigits_le (k := 0) h (by decide) (by decide : 0 < 400)
  · have hm : m < 2 ^ 53 := Nat.lt_pow_of_log_lt (by decide) (by rw [← Nat.log2_eq_log_two]; omega)
    exact length_toDigits_le hm (by omega) (by decide)

/-- An integer's text is read as the float of its literal. -/
theorem IsIntegerText.readReal?_toFloat (h : IsIntegerText cs) : readReal? (String.ofList cs) = some
    (⟨(Decimal.readSign cs).1, Decimal.natOfDigits (Decimal.readSign cs).2,
      0⟩ : Decimal.Literal).toFloat := by
  have hchars : cs.any Char.isDigit = true ∧ cs.all isRealChar = true := by
    obtain ⟨sgn, hcs, hsgn⟩ := readSign_cases cs
    have hdigit : ∀ c ∈ (Decimal.readSign cs).2, isRealChar c = true := by
      intro c hc
      simp [isRealChar, h.allDigits c hc]
    obtain ⟨c, hc⟩ := List.exists_mem_of_ne_nil _ h.nonempty
    have hall : ∀ c ∈ sgn, isRealChar c = true := by
      obtain ⟨rfl, -⟩ | ⟨rfl | rfl, -⟩ := hsgn <;> simp [isRealChar]
    rw [hcs, List.any_append, List.all_append]
    refine ⟨?_, ?_⟩
    · rw [List.any_eq_true.mpr ⟨c, hc, h.allDigits c hc⟩, Bool.or_true]
    · rw [List.all_eq_true.mpr hall, List.all_eq_true.mpr hdigit, Bool.and_self]
  rw [readReal?, String.toList_ofList]
  simp only [hchars.1, hchars.2, Bool.and_self, if_true, h.readLiteral?_eq]

/-- The absolute value of an integer is told by the digits behind its sign. -/
theorem natAbs_integerOf (cs : List Char) :
    (integerOf cs).natAbs = Decimal.natOfDigits (Decimal.readSign cs).2 := by
  unfold integerOf
  split_ifs <;> omega

/-- An integer text is read as an integer, and as its own if that is the value of a float. -/
theorem IsIntegerText.readReal?_eq (h : IsIntegerText cs) : ∃ x,
    readReal? (String.ofList cs) = some x ∧ IsIntegral x ∧
      (IsExact (integerOf cs).natAbs → HoldsInt x (integerOf cs)) := by
  refine ⟨_, h.readReal?_toFloat, ?_, fun hexact ↦ ?_⟩
  · obtain hshort | hlong :=
      le_or_gt (Nat.toDigits 10 (Decimal.natOfDigits (Decimal.readSign cs).2)).length 400
    · rw [toFloat_of_short hshort]
      split_ifs
      · exact (isIntegral_ofNat _).neg
      · exact isIntegral_ofNat _
    · have hinfinite : IsIntegral (1.0 / 0.0) := .inl (by decide +kernel)
      rw [toFloat_of_long hlong]
      split_ifs
      · exact hinfinite.neg
      · exact hinfinite
  · rw [natAbs_integerOf] at hexact
    have hholds := holdsInt_ofNat_of_isExact hexact
    rw [toFloat_of_short (length_le_of_isExact hexact), integerOf]
    split_ifs
    · exact hholds.neg
    · exact hholds

/-- The largest integer is read as the float behind it. -/
theorem IsIntegerText.readReal?_maxInt (h : IsIntegerText cs) (hmax : integerOf cs = maxInt) : ∃ x,
    readReal? (String.ofList cs) = some x ∧ HoldsInt x (2 ^ 63) := by
  have hpositive : (Decimal.readSign cs).1 = false := by
    unfold integerOf at hmax
    split_ifs at hmax with hnegative
    · have : maxInt = 9223372036854775807 := rfl
      omega
    · simpa using hnegative
  have hdigits : Decimal.natOfDigits (Decimal.readSign cs).2 = 9223372036854775807 := by
    rw [← natAbs_integerOf, hmax]
    rfl
  have hunpacked : unpacked (Float.ofNat 9223372036854775807) =
      .finite .positive (2 ^ 52) 11 (Nat.two_pow_pos 52) := rfl
  refine ⟨_, h.readReal?_toFloat, .positive, ?_, by decide⟩
  rw [hpositive, hdigits, toFloat_of_short (by decide +kernel),
    if_neg Bool.false_ne_true, hunpacked]
  exact .finite (by decide) (by decide)

/-! ## Integers written -/

/-- A sign and some digits are read as that sign and those digits. -/
theorem readSign_append {sgn ds : List Char} (hsgn : sgn = ['-'] ∨ sgn = ['+'] ∨ sgn = [])
    (hne : ds ≠ []) (hds : ∀ d ∈ ds, d.isDigit = true) :
    Decimal.readSign (sgn ++ ds) = (decide (sgn = ['-']), ds) := by
  obtain rfl | rfl | rfl := hsgn
  · rfl
  · rfl
  · -- A digit is no sign.
    obtain ⟨d, ds, rfl⟩ := List.exists_cons_of_ne_nil hne
    have hd := hds d List.mem_cons_self
    rw [List.nil_append]
    unfold Decimal.readSign
    split
    · next heq => rw [(List.cons.inj heq).1] at hd; cases hd
    · next heq => rw [(List.cons.inj heq).1] at hd; cases hd
    · rfl

/-- Zeros in front of the digits do not count. -/
theorem natOfDigits_zeros (k : Nat) (ds : List Char) :
    Decimal.natOfDigits (List.replicate k '0' ++ ds) = Decimal.natOfDigits ds := by
  induction k with
  | zero => rfl
  | succ k ih =>
    rw [List.replicate_succ, List.cons_append]
    exact ih

/-- What stands in front of the digits of a number that is not negative. -/
theorem mark_cases (sign : SignStyle) (negative : Bool) :
    ∃ lead sgn, (sign.mark negative).toList = lead ++ sgn ∧ (lead = [] ∨ lead = [' ']) ∧
      (sgn = ['-'] ∨ sgn = ['+'] ∨ sgn = []) ∧ (sgn = ['-'] ↔ negative = true) ∧
      (lead ++ sgn).length ≤ 1 := by
  cases negative with
  | true => exact ⟨[], ['-'], by cases sign <;> rfl, .inl rfl, .inl rfl, by simp, le_rfl⟩
  | false => cases sign with
    | negativeOnly => exact ⟨[], [], rfl, .inl rfl, .inr (.inr rfl), by simp, Nat.zero_le _⟩
    | always => exact ⟨[], ['+'], rfl, .inl rfl, .inr (.inl rfl), by simp, le_rfl⟩
    | space => exact ⟨[' '], [], rfl, .inr rfl, .inr (.inr rfl), by simp, le_rfl⟩

/-- An integer is written as a text that spells it, perhaps with a blank in the place of the
sign. -/
theorem renderInt_spells (z : Int) (width : Nat) (sign : SignStyle) : ∃ lead cs,
    (renderInt z width sign).toList = lead ++ cs ∧ (lead = [] ∨ lead = [' ']) ∧
      IsIntegerText cs ∧ integerOf cs = z ∧
      (lead ++ cs).length ≤ max width ((Nat.toDigits 10 z.natAbs).length + 1) := by
  obtain ⟨lead, sgn, hmark, hlead, hsgn, hneg, hlength⟩ := mark_cases sign (z < 0)
  have hdigits : (toString z.natAbs).toList = Nat.toDigits 10 z.natAbs := by
    rw [Nat.toString_eq_ofList_toDigits, String.toList_ofList]
  generalize hfill : width - ((sign.mark (z < 0)).length + (toString z.natAbs).length) = fill
  have hds : ∀ d ∈ List.replicate fill '0' ++ Nat.toDigits 10 z.natAbs, d.isDigit = true := by
    rw [List.forall_mem_append]
    exact ⟨fun d hd ↦ by rw [List.eq_of_mem_replicate hd]; rfl, isDigit_of_mem_toDigits⟩
  have hread :=
    readSign_append hsgn (List.append_ne_nil_of_right_ne_nil _ (toDigits_ne_nil z.natAbs)) hds
  refine ⟨lead, sgn ++ (List.replicate fill '0' ++ Nat.toDigits 10 z.natAbs), ?_, hlead, ?_, ?_, ?_⟩
  · rw [renderInt, zeroFill, hfill, String.toList_append, String.toList_append,
      String.toList_ofList, hmark, hdigits, List.append_assoc, List.append_assoc]
  · exact ⟨by rw [hread]; exact List.append_ne_nil_of_right_ne_nil _ (toDigits_ne_nil z.natAbs),
      by rwa [hread]⟩
  · have hvalue : Decimal.natOfDigits (Nat.toDigits 10 z.natAbs) = z.natAbs :=
      Nat.ofDigitChars_toDigits (by decide) (by decide)
    simp only [integerOf, hread, natOfDigits_zeros, hvalue, decide_eq_true_iff, hneg]
    split_ifs <;> omega
  · have hmarkLength : (sign.mark (z < 0)).length = (lead ++ sgn).length := by
      rw [← String.length_toList, hmark]
    have hdigitsLength : (toString z.natAbs).length = (Nat.toDigits 10 z.natAbs).length := by
      rw [← String.length_toList, hdigits]
    rw [hmarkLength, hdigitsLength] at hfill
    simp only [List.length_append, List.length_replicate] at hlength hfill ⊢
    omega

end Number

namespace NumberStyle

variable {token : List Char}

/-- An integer's text is not in scientific form. -/
theorem scientificParts?_integer (h : Number.IsIntegerText token) :
    scientificParts? token = none := by
  obtain ⟨sgn, hcs, hsgn⟩ := Number.readSign_cases token
  have hne := h.nonempty
  have hds := h.allDigits
  generalize (Decimal.readSign token).2 = ds at hcs hne hds
  have htake : ds.takeWhile Char.isDigit = ds := List.takeWhile_eq_self_iff.mpr hds
  have hdrop : ds.dropWhile Char.isDigit = [] := List.dropWhile_eq_nil_iff.mpr hds
  subst hcs
  obtain ⟨rfl, -⟩ | ⟨rfl | rfl, -⟩ := hsgn
  · simp [scientificParts?, htake, hdrop, exponentParts?]
  · simp [scientificParts?, htake, hdrop, exponentParts?]
  · obtain ⟨d, ds, rfl⟩ := List.exists_cons_of_ne_nil hne
    have hd := hds d List.mem_cons_self
    have hplus : d ≠ '+' := by rintro rfl; cases hd
    have hminus : d ≠ '-' := by rintro rfl; cases hd
    rw [List.nil_append]
    simp only [scientificParts?, beq_iff_eq, hplus, hminus, Bool.or_eq_true, or_self,
      if_false, htake, hdrop, List.dropWhile_nil, exponentParts?, ite_self]

/-- An integer's text asks for integers to be printed as such. -/
theorem whole_withPlaces_integer (h : Number.IsIntegerText token) (style : NumberStyle) :
    (style.withPlaces token).whole = true := by
  have hpoint : ∀ c ∈ token, (c == '.') = false := by
    obtain ⟨sgn, hcs, hsgn⟩ := Number.readSign_cases token
    rw [hcs, List.forall_mem_append]
    constructor
    · obtain ⟨rfl, -⟩ | ⟨rfl | rfl, -⟩ := hsgn <;> simp
    · intro c hc
      rw [Bool.eq_false_iff, ne_eq, beq_iff_eq]
      rintro rfl
      cases h.allDigits _ hc
  unfold withPlaces
  rw [Text.splitWhere_of_forall hpoint]

/-- The style of an integer is that of a number without a point. -/
theorem whole_ofRealToken_integer (h : Number.IsIntegerText token) (style : NumberStyle) :
    (style.ofRealToken token).whole = true := by
  unfold ofRealToken
  rw [scientificParts?_integer h]
  exact whole_withPlaces_integer h _

end NumberStyle

end TransportDeck
