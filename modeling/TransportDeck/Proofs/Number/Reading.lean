import TransportDeck.Number.Literal
import TransportDeck.Proofs.Number.Comparison

/-!
# Numbers as read

What is read from a decimal is a number, and so is what an integer converts to.  Keeping the sign of
a float apart from its magnitude loses nothing: put back, it gives a float that equals the first.
-/

namespace TransportDeck

open Float.Model

namespace Unpacked

variable {f : Format}

/-! ## Packing -/

/-- The packed parts are undefined only with all bits of the exponent and some of the mantissa. -/
theorem isNaN_unpack_packComponents (s : UnpackedFloat.Sign) (e : BitVec f.exponentBits)
    (m : BitVec f.mantissaBitsWithoutImplicit) :
    (UnpackedFloat.unpack f (UnpackedFloat.packComponents f s e m)).isNaN = true ↔
      e = -1#_ ∧ m ≠ 0#_ := by
  simp only [UnpackedFloat.unpack, UnpackedFloat.unpackMantissa_packComponents,
    UnpackedFloat.unpackExponent_packComponents]
  split_ifs <;> simp_all [UnpackedFloat.isNaN]

/-- A number below the last one has not all bits. -/
theorem ofNat_ne_neg_one {n : Nat} (h : n + 1 < 2 ^ f.exponentBits) :
    BitVec.ofNat f.exponentBits n ≠ -1#_ := by
  intro heq
  have := congrArg BitVec.toNat heq
  rw [BitVec.toNat_ofNat, Nat.mod_eq_of_lt (by omega), BitVec.neg_one_eq_allOnes,
    BitVec.toNat_allOnes] at this
  omega

variable {u : UnpackedFloat}

/-- Packing a number that is defined gives one. -/
theorem isNaN_unpack_pack (h : u.isNaN = false) :
    (UnpackedFloat.unpack f (UnpackedFloat.pack f u)).isNaN = false := by
  have infinite (s : UnpackedFloat.Sign) : (UnpackedFloat.unpack f
      (UnpackedFloat.packedInfinity f s)).isNaN = false := by
    rw [Bool.eq_false_iff, ne_eq, UnpackedFloat.packedInfinity, isNaN_unpack_packComponents]
    exact fun h ↦ h.2 rfl
  cases u with
  | notANumber => cases h
  | infinity s => exact infinite s
  | zero s =>
    rw [Bool.eq_false_iff, ne_eq, UnpackedFloat.pack, UnpackedFloat.packedZero,
      isNaN_unpack_packComponents]
    exact fun h ↦ h.2 rfl
  | finite s m e hm =>
    unfold UnpackedFloat.pack
    dsimp only
    split_ifs with hlarge hnormal
    · exact infinite s
    · rw [Bool.eq_false_iff, ne_eq, isNaN_unpack_packComponents]
      exact fun h ↦ ofNat_ne_neg_one (Nat.lt_of_not_le hlarge) h.1
    · rw [Bool.eq_false_iff, ne_eq, isNaN_unpack_packComponents]
      exact fun h ↦ ofNat_ne_neg_one (Nat.lt_of_le_of_lt (Nat.le_add_left _ _)
        (Nat.lt_of_not_le hlarge)) h.1

/-- Rounding gives a number that is defined. -/
theorem isNaN_round {s : UnpackedFloat.Sign} {m : Nat} {e : Int} {a : UnpackedFloat.Accuracy} :
    (UnpackedFloat.roundWithAccuracy f s m e a).isNaN = false := by
  simp only [UnpackedFloat.roundWithAccuracy]
  split_ifs <;> rfl

/-- A number in scientific form is defined. -/
theorem isNaN_ofScientific (m : Nat) (e : Int) :
    (UnpackedFloat.ofScientific f m e).isNaN = false := by
  unfold UnpackedFloat.ofScientific
  split_ifs
  · rfl
  · rfl
  · rfl
  · exact isNaN_round
  · exact isNaN_round

theorem isNaN_ofNat (n : Nat) : (UnpackedFloat.ofNat f n).isNaN = false := by
  simp only [UnpackedFloat.ofNat, UnpackedFloat.ofInt, UnpackedFloat.normalize]
  split
  · exact isNaN_round
  · rfl
  · exact isNaN_round

/-- Finite and not zero. -/
def isRegular : UnpackedFloat → Bool
  | .finite .. => true
  | _ => false

/-- The product with a regular number is defined. -/
theorem isNaN_mul {v : UnpackedFloat} (hu : u.isNaN = false) (hv : isRegular v = true) :
    (UnpackedFloat.mul f u v).isNaN = false := by
  cases v with
  | finite s m e h => cases u with
    | notANumber => cases hu
    | finite s' m' e' h' => exact isNaN_round
    | _ => rfl
  | _ => cases hv

/-- The quotient by a regular number is defined. -/
theorem isNaN_div {v : UnpackedFloat} (hu : u.isNaN = false) (hv : isRegular v = true) :
    (UnpackedFloat.div f u v).isNaN = false := by
  cases v with
  | finite s m e h => cases u with
    | notANumber => cases hu
    | finite s' m' e' h' => exact isNaN_round
    | _ => rfl
  | _ => cases hv

/-- A number is undefined in either sign. -/
theorem isNaN_neg : u.neg.isNaN = u.isNaN := by cases u <;> rfl

/-! ## Signs -/

/-- The bits with another sign. -/
def withSign (s : UnpackedFloat.Sign) (b : BitVec f.numBits) : BitVec f.numBits :=
  UnpackedFloat.packComponents f s (UnpackedFloat.unpackExponent b) (UnpackedFloat.unpackMantissa b)

/-- The absolute value is taken in the sign bit. -/
theorem abs_unpack (b : BitVec f.numBits) :
    (UnpackedFloat.unpack f b).abs = UnpackedFloat.unpack f (withSign .positive b) := by
  have hs : UnpackedFloat.Sign.ofBitVec (UnpackedFloat.Sign.toBitVec .positive) = .positive := rfl
  simp only [withSign, UnpackedFloat.unpack, UnpackedFloat.unpackMantissa_packComponents,
    UnpackedFloat.unpackExponent_packComponents, unpackSign_packComponents, hs]
  split_ifs <;> rfl

/-- The sign is kept in one bit. -/
theorem ofBitVec_toBitVec (s : UnpackedFloat.Sign) :
    UnpackedFloat.Sign.ofBitVec s.toBitVec = s := by cases s <;> rfl

/-- The negative is taken in the sign bit. -/
theorem neg_unpack (b : BitVec f.numBits) : (UnpackedFloat.unpack f b).neg =
    UnpackedFloat.unpack f
      (withSign (-UnpackedFloat.Sign.ofBitVec (UnpackedFloat.unpackSign b)) b) := by
  simp only [withSign, UnpackedFloat.unpack, UnpackedFloat.unpackMantissa_packComponents,
    UnpackedFloat.unpackExponent_packComponents, unpackSign_packComponents, ofBitVec_toBitVec]
  split_ifs <;> rfl

/-- Bits that stand for a number are packed as they were. -/
theorem unpack_pack_unpack (b : BitVec Format.binary64.numBits) :
    UnpackedFloat.unpack .binary64 (UnpackedFloat.pack .binary64
      (UnpackedFloat.unpack .binary64 b)) = UnpackedFloat.unpack .binary64 b := by
  have hbias : Format.binary64.exponentBias = 1023 := rfl
  have hbits : Format.binary64.mantissaBits = 53 := rfl
  generalize hs : UnpackedFloat.Sign.ofBitVec (UnpackedFloat.unpackSign b) = s
  generalize he : UnpackedFloat.unpackExponent b = e
  generalize hm : UnpackedFloat.unpackMantissa b = m
  have hmlt : m.toNat < 2 ^ 52 := m.isLt
  have helt : e.toNat < 2 ^ 11 := e.isLt
  have hunpack : UnpackedFloat.unpack .binary64 b =
      UnpackedFloat.unpack .binary64 (UnpackedFloat.packComponents .binary64 s e m) := by
    simp only [UnpackedFloat.unpack, UnpackedFloat.unpackMantissa_packComponents,
      UnpackedFloat.unpackExponent_packComponents, unpackSign_packComponents, ofBitVec_toBitVec,
      hs, he, hm]
  rw [hunpack]
  conv =>
    lhs
    arg 2
    simp only [UnpackedFloat.unpack, UnpackedFloat.unpackMantissa_packComponents,
      UnpackedFloat.unpackExponent_packComponents, unpackSign_packComponents, ofBitVec_toBitVec]
  split_ifs with h₁ h₂ h₃ h₄
  · subst h₁ h₂
    rfl
  · subst h₁
    simp only [UnpackedFloat.unpack, UnpackedFloat.unpackMantissa_packComponents,
      UnpackedFloat.unpackExponent_packComponents, if_neg h₂, if_true]
    rfl
  · subst h₃ h₄
    rfl
  · -- Below the normal range there is no implicit bit to clear.
    subst h₃
    have hlog : m.toNat.log2 < 52 := by
      have hm₀ : m.toNat ≠ 0 := fun h ↦ h₄ (BitVec.eq_of_toNat_eq h)
      exact (Nat.log2_lt hm₀).mpr hmlt
    congr 1
    simp only [UnpackedFloat.pack, hbias, hbits]
    rw [if_neg (by decide), if_neg (by omega), BitVec.ofNat_toNat, BitVec.setWidth_eq]
  · have he₁ : e.toNat + 1 < 2 ^ 11 := by
      have : e.toNat ≠ 2 ^ 11 - 1 := fun h ↦ h₁ (BitVec.eq_of_toNat_eq h)
      omega
    have hmant : (1#1 ++ m).toNat = 2 ^ 52 + m.toNat := by
      rw [BitVec.toNat_append, ← Nat.shiftLeft_add_eq_or_of_lt hmlt]
      simp [Nat.shiftLeft_eq]
    have hlog : (2 ^ 52 + m.toNat).log2 = 52 := by
      rw [Nat.log2_eq_iff (by omega)]
      omega
    congr 1
    simp only [UnpackedFloat.pack, hbias, hbits, hmant, hlog]
    have hexp : ((e.toNat : Int) - ((1023 : Nat) + (52 : Nat)) + (1023 : Nat) + (52 : Nat)).toNat =
        e.toNat := by omega
    rw [hexp, if_neg (by omega), if_pos trivial, BitVec.ofNat_toNat, BitVec.setWidth_eq]
    congr 1
    apply BitVec.eq_of_toNat_eq
    rw [BitVec.toNat_ofNat]
    omega

end Unpacked

/-! ## Floats -/

/-- The absolute value is taken of the unpacked parts. -/
theorem unpacked_abs_eq (x : Float) : unpacked x.abs = (unpacked x).abs := by
  change UnpackedFloat.unpack .binary64 (UnpackedFloat.pack .binary64
    (UnpackedFloat.unpack .binary64 x.toModel.toBits.toBitVec).abs) = _
  rw [Unpacked.abs_unpack, Unpacked.unpack_pack_unpack, ← Unpacked.abs_unpack]
  rfl

/-- The negative is taken of the unpacked parts. -/
theorem unpacked_neg (x : Float) : unpacked (-x) = (unpacked x).neg := by
  change UnpackedFloat.unpack .binary64 (UnpackedFloat.pack .binary64
    (UnpackedFloat.unpack .binary64 x.toModel.toBits.toBitVec).neg) = _
  rw [Unpacked.neg_unpack, Unpacked.unpack_pack_unpack, ← Unpacked.neg_unpack]
  rfl

theorem isNaN_neg (x : Float) : (-x).isNaN = x.isNaN := by
  change (unpacked (-x)).isNaN = (unpacked x).isNaN
  rw [unpacked_neg, Unpacked.isNaN_neg]

/-- The powers of ten that are held exactly are regular. -/
theorem isRegular_powersOfTen :
    Float.exactlyRepresentablePowersOfTen.all (fun x ↦ Unpacked.isRegular (unpacked x)) = true := by
  decide +kernel

/-- A literal in scientific form is a number that is defined. -/
theorem isNaN_ofScientific (m : Nat) (b : Bool) (e : Nat) :
    (Float.ofScientific m b e).isNaN = false := by
  unfold Float.ofScientific
  split_ifs with hfast hb
  · exact Unpacked.isNaN_unpack_pack (Unpacked.isNaN_div
      (Unpacked.isNaN_unpack_pack (Unpacked.isNaN_ofNat _))
      (Array.all_eq_true.mp isRegular_powersOfTen e _))
  · exact Unpacked.isNaN_unpack_pack (Unpacked.isNaN_mul
      (Unpacked.isNaN_unpack_pack (Unpacked.isNaN_ofNat _))
      (Array.all_eq_true.mp isRegular_powersOfTen e _))
  · exact Unpacked.isNaN_unpack_pack (Unpacked.isNaN_ofScientific m _)
  · exact Unpacked.isNaN_unpack_pack (Unpacked.isNaN_ofScientific m _)

theorem isNaN_ofNat (n : Nat) : (Float.ofNat n).isNaN = false :=
  isNaN_ofScientific n false 0

theorem isNaN_ofInt (n : Int) : (Float.ofInt n).isNaN = false := by
  cases n with
  | ofNat n => exact isNaN_ofNat n
  | negSucc n =>
    change (-Float.ofNat (n + 1)).isNaN = false
    rw [isNaN_neg]
    exact isNaN_ofNat (n + 1)

/-! ## Signs kept apart -/

theorem unpacked_zero : unpacked 0 = .zero .positive := rfl

/-- Floats are equal if their parts compare as equal. -/
theorem beq_iff_unpacked {x y : Float} :
    (x == y) = true ↔ (unpacked x).compare (unpacked y) = some .eq := by
  change ((unpacked x).compare (unpacked y) == some .eq) = true ↔ _
  rw [beq_iff_eq]

/-- A number below zero is the negative of its absolute value. -/
theorem beq_neg_abs {x : Float} (h : x < 0) : (-x.abs == x) = true := by
  rw [lt_iff_unpacked, unpacked_zero] at h
  rw [beq_iff_unpacked, unpacked_neg, unpacked_abs_eq]
  cases hx : unpacked x with
  | notANumber => simp [hx, UnpackedFloat.compare] at h
  | zero s => simp [hx, UnpackedFloat.compare] at h
  | infinity s =>
    rw [hx] at h
    cases s with
    | negative => rfl
    | positive => cases h
  | finite s m e hm =>
    rw [hx] at h
    cases s with
    | negative => exact Unpacked.compare_self rfl
    | positive => cases h

/-- A number that is not below zero is its absolute value. -/
theorem beq_abs {x : Float} (hnan : x.isNaN = false) (h : ¬x < 0) : (x.abs == x) = true := by
  change (unpacked x).isNaN = false at hnan
  rw [lt_iff_unpacked, unpacked_zero] at h
  rw [beq_iff_unpacked, unpacked_abs_eq]
  cases hx : unpacked x with
  | notANumber => simp [hx, UnpackedFloat.isNaN] at hnan
  | zero s => rfl
  | infinity s =>
    rw [hx] at h
    cases s with
    | negative => exact absurd rfl h
    | positive => rfl
  | finite s m e hm =>
    rw [hx] at h
    cases s with
    | negative => exact absurd rfl h
    | positive => exact Unpacked.compare_self rfl

/-! ## Decimals -/

/-- A decimal literal is read as a number that is defined. -/
theorem Decimal.Literal.isNaN_toFloat (l : Literal) : l.toFloat.isNaN = false := by
  have hinfinite : (1.0 / 0.0 : Float).isNaN = false := by decide +kernel
  unfold Literal.toFloat
  extract_lets size magnitude
  have hmagnitude : magnitude.isNaN = false := by
    unfold magnitude
    split_ifs
    · exact isNaN_ofScientific 0 true 1
    · exact hinfinite
    · split <;> exact isNaN_ofScientific _ _ _
  split_ifs
  · rw [isNaN_neg, hmagnitude]
  · exact hmagnitude

/-- Whatever text is read as a number is read as one that is defined. -/
theorem Number.isNaN_of_readReal? {text : String} {x : Float} (h : readReal? text = some x) :
    x.isNaN = false := by
  unfold readReal? at h
  dsimp only at h
  split_ifs at h
  split at h
  · obtain rfl := Option.some.inj h
    exact Decimal.Literal.isNaN_toFloat _
  · obtain ⟨l, -, rfl⟩ := Option.map_eq_some_iff.mp h
    exact l.isNaN_toFloat

end TransportDeck
