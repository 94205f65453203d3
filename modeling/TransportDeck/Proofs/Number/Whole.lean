import TransportDeck.Proofs.Number.Rounding

/-!
# Whole floats

A float may hold a natural number and a sign.  The difference of two such floats is at most rounded
to the next power of two, so it cannot be lost against a tolerance of one part in a billion as long
as one of the numbers is small.
-/

namespace TransportDeck

open Float.Model

namespace Unpacked

variable {u v : UnpackedFloat} {s s' : UnpackedFloat.Sign} {n n' : Nat}

/-- The float is a natural number with a sign. -/
inductive IsWhole : UnpackedFloat → UnpackedFloat.Sign → Nat → Prop
  | zero {s : UnpackedFloat.Sign} : IsWhole (.zero s) s 0
  | finite {s : UnpackedFloat.Sign} {m : Nat} {e : Int} {h : 0 < m} {n : Nat}
      (log2_eq : m.log2 = 52) (eq : m * 2 ^ e.toNat = n * 2 ^ (-e).toNat) :
        IsWhole (.finite s m e h) s n

/-- The exponent tells how many digits the number has. -/
theorem log2_of_scaled {m : Nat} {e : Int} (hlog : m.log2 = 52)
    (h : m * 2 ^ e.toNat = n * 2 ^ (-e).toNat) : n ≠ 0 ∧ (n.log2 : Int) = e + 52 := by
  have hm : m ≠ 0 := by
    rintro rfl
    rw [Nat.log2_zero] at hlog
    omega
  have hn : n ≠ 0 := by
    rintro rfl
    rw [Nat.zero_mul] at h
    exact absurd h (Nat.mul_ne_zero hm (Nat.two_pow_pos _).ne')
  have hlogs := congrArg Nat.log2 h
  rw [log2_mul_two_pow hm, log2_mul_two_pow hn] at hlogs
  exact ⟨hn, by omega⟩

/-- A whole number lies in the binade of its binary logarithm. -/
theorem IsWhole.inBinade (h : IsWhole u s n) (hn : n ≠ 0) : InBinade u n.log2 := by
  cases h with
  | zero => exact absurd rfl hn
  | finite hlog heq => exact ⟨s, _, _, _, rfl, hlog, (log2_of_scaled hlog heq).2.symm⟩

/-- The absolute value of a float with a whole number is that number. -/
theorem IsWhole.abs (h : IsWhole u s n) : IsWhole u.abs .positive n := by
  cases h with
  | zero => exact .zero
  | finite hlog heq => exact .finite hlog heq

/-- A float with a whole number is neither infinite nor undefined. -/
theorem IsWhole.status (h : IsWhole u s n) :
    u.isFinite = true ∧ u.isNaN = false ∧ u.isInf = false := by
  cases h <;> exact ⟨rfl, rfl, rfl⟩

/-- Equal numbers are equal floats. -/
theorem IsWhole.compare_eq (hu : IsWhole u s n) (hv : IsWhole v s' n')
    (h : s.apply n = s'.apply n') : u.compare v = some .eq := by
  cases hu with
  | zero =>
    cases hv with
    | zero => rfl
    | finite hlog heq =>
      have hne := (log2_of_scaled hlog heq).1
      cases s <;> cases s' <;> simp [UnpackedFloat.Sign.apply] at h <;> omega
  | finite hlog heq =>
    have hne := (log2_of_scaled hlog heq).1
    cases hv with
    | zero => cases s <;> cases s' <;> simp [UnpackedFloat.Sign.apply] at h <;> omega
    | finite hlog' heq' =>
      have hne' := (log2_of_scaled hlog' heq').1
      have hsame : s = s' ∧ n = n' := by
        cases s <;> cases s' <;> simp [UnpackedFloat.Sign.apply] at h ⊢ <;> omega
      obtain ⟨rfl, rfl⟩ := hsame
      have he := (log2_of_scaled hlog heq).2.symm.trans (log2_of_scaled hlog' heq').2
      obtain rfl := add_right_cancel he
      have hm := Nat.eq_of_mul_eq_mul_right (Nat.two_pow_pos _) (heq.trans heq'.symm)
      subst hm
      exact compare_self rfl

/-- Finite floats that compare as equal have the same parts: their mantissas are reduced. -/
theorem parts_of_compare {m m' : Nat} {e e' : Int} {h : 0 < m} {h' : 0 < m'}
    (heq : (UnpackedFloat.finite s m e h).compare (.finite s' m' e' h') = some .eq) :
    s = s' ∧ m = m' ∧ e = e' := by
  cases s <;> cases s' <;> simp [UnpackedFloat.compare, Ordering.then_eq_eq] at heq ⊢ <;> tauto

/-- Floats with whole numbers compare as equal only if the numbers are. -/
theorem IsWhole.eq_of_compare (hu : IsWhole u s n) (hv : IsWhole v s' n')
    (h : u.compare v = some .eq) : s.apply n = s'.apply n' := by
  cases hu with
  | zero =>
    cases hv with
    | zero => cases s <;> cases s' <;> rfl
    | finite hlog heq => cases s' <;> cases h
  | finite hlog heq =>
    cases hv with
    | zero => cases s <;> cases h
    | finite hlog' heq' =>
      obtain ⟨rfl, rfl, rfl⟩ := parts_of_compare h
      have hn := Nat.eq_of_mul_eq_mul_right (Nat.two_pow_pos _) (heq.symm.trans heq')
      rw [hn]

/-- What compares as equal to a whole number is finite. -/
theorem IsWhole.isFinite_of_compare (hu : IsWhole u s n) (h : u.compare v = some .eq) :
    v.isFinite = true := by
  cases hu with
  | zero => cases v with
    | infinity s' => cases s' <;> cases h
    | notANumber => cases h
    | zero s' => rfl
    | finite s' m e hm => rfl
  | finite => cases v with
    | infinity s' => cases s <;> cases s' <;> cases h
    | notANumber => cases s <;> cases h
    | zero s' => rfl
    | finite s' m e hm => rfl

/-! ## Differences -/

/-- The mantissa at a smaller exponent. -/
theorem mantissa_scaled {m : Nat} {e E : Int} (h : m * 2 ^ e.toNat = n * 2 ^ (-e).toNat)
    (hE : E ≤ e) : m * 2 ^ (e - E).toNat * 2 ^ E.toNat = n * 2 ^ (-E).toNat := by
  obtain he | he := le_total 0 e
  · have hnone : (-e).toNat = 0 := by omega
    have hsum : (e - E).toNat + E.toNat = e.toNat + (-E).toNat := by omega
    rw [hnone, Nat.pow_zero, Nat.mul_one] at h
    rw [Nat.mul_assoc, ← Nat.pow_add, hsum, Nat.pow_add, ← Nat.mul_assoc, h]
  · have hnone : e.toNat = 0 ∧ E.toNat = 0 := by omega
    have hsum : (-E).toNat = (-e).toNat + (e - E).toNat := by omega
    rw [hnone.1, Nat.pow_zero, Nat.mul_one] at h
    rw [hnone.2, Nat.pow_zero, Nat.mul_one, hsum, Nat.pow_add, ← Nat.mul_assoc, h]

theorem apply_mul (s : UnpackedFloat.Sign) (n k : Int) : s.apply (n * k) = s.apply n * k := by
  cases s <;> simp [UnpackedFloat.Sign.apply]

/-- The mantissas at a common exponent differ as the numbers do. -/
theorem sub_scaled (s s' : UnpackedFloat.Sign) {m m' : Nat} {e e' : Int}
    (h : m * 2 ^ e.toNat = n * 2 ^ (-e).toNat) (h' : m' * 2 ^ e'.toNat = n' * 2 ^ (-e').toNat) :
    (s.apply (m <<< (e - min e e').toNat) - s'.apply (m' <<< (e' - min e e').toNat))
      * (2 ^ (min e e').toNat : Nat) =
      (s.apply n - s'.apply n') * (2 ^ (-min e e').toNat : Nat) := by
  have hscaled := mantissa_scaled h (min_le_left e e')
  have hscaled' := mantissa_scaled h' (min_le_right e e')
  rw [Nat.shiftLeft_eq, Nat.shiftLeft_eq, Int.sub_mul, Int.sub_mul, ← apply_mul, ← apply_mul,
    ← apply_mul, ← apply_mul]
  exact_mod_cast congrArg₂ (fun a b : Nat ↦ s.apply a - s'.apply b) hscaled hscaled'

/-- A number that is rounded keeps its size, or gets to the next power of two. -/
theorem normalize_binade {M : Int} (E : Int) (hM : M ≠ 0) (hE : -1022 ≤ M.natAbs.log2 + E) :
    InBinade (UnpackedFloat.normalize .binary64 M E .positive) (M.natAbs.log2 + E) ∨
      InBinade (UnpackedFloat.normalize .binary64 M E .positive) (M.natAbs.log2 + E + 1) := by
  have hne : M.natAbs ≠ 0 := Int.natAbs_ne_zero.mpr hM
  obtain hlt | hgt := lt_or_gt_of_ne hM
  · have hcompare : compare M 0 = .lt := compare_lt_iff_lt.mpr hlt
    have habs : (-M).toNat = M.natAbs := by omega
    simp only [UnpackedFloat.normalize, hcompare, habs]
    exact round_binade hne hE
  · have hcompare : compare M 0 = .gt := compare_gt_iff_gt.mpr hgt
    have habs : M.toNat = M.natAbs := by omega
    simp only [UnpackedFloat.normalize, hcompare, habs]
    exact round_binade hne hE

/-- The difference of two whole floats. -/
theorem IsWhole.sub_binade (hu : IsWhole u s n) (hv : IsWhole v s' n')
    (hne : s.apply n ≠ s'.apply n') :
    InBinade (UnpackedFloat.sub .binary64 u v) (s.apply n - s'.apply n').natAbs.log2 ∨
      InBinade (UnpackedFloat.sub .binary64 u v)
        ((s.apply n - s'.apply n').natAbs.log2 + 1 : Nat) := by
  cases hu with
  | zero =>
    cases hv with
    | zero => cases s <;> cases s' <;> exact absurd rfl hne
    | finite hlog heq =>
      have habs : (s.apply (0 : Nat) - s'.apply n').natAbs = n' := by
        cases s <;> cases s' <;> simp [UnpackedFloat.Sign.apply]
      rw [habs]
      exact .inl ⟨_, _, _, _, rfl, hlog, (log2_of_scaled hlog heq).2.symm⟩
  | @finite _ m e _ _ hlog heq =>
    have hsize := log2_of_scaled hlog heq
    cases hv with
    | zero =>
      have habs : (s.apply n - s'.apply (0 : Nat)).natAbs = n := by
        cases s <;> cases s' <;> simp [UnpackedFloat.Sign.apply]
      rw [habs]
      exact .inl ⟨_, _, _, _, rfl, hlog, hsize.2.symm⟩
    | @finite _ m' e' _ _ hlog' heq' =>
      have hsize' := log2_of_scaled hlog' heq'
      have hdiff := sub_scaled s s' heq heq'
      have hd : s.apply n - s'.apply n' ≠ 0 := sub_ne_zero.mpr hne
      simp only [UnpackedFloat.sub, UnpackedFloat.decreaseExponent]
      generalize hM :
        s.apply (m <<< (e - min e e').toNat) - s'.apply (m' <<< (e' - min e e').toNat) =
        M at hdiff ⊢
      have hM : M ≠ 0 := by
        rintro rfl
        rw [Int.zero_mul] at hdiff
        exact hd ((mul_eq_zero.mp hdiff.symm).resolve_right
          (by exact_mod_cast (Nat.two_pow_pos _).ne'))
      have hlogs := congrArg (fun z : Int ↦ z.natAbs.log2) hdiff
      simp only [Int.natAbs_mul, Int.natAbs_natCast, log2_mul_two_pow (Int.natAbs_ne_zero.mpr hd),
        log2_mul_two_pow (Int.natAbs_ne_zero.mpr hM)] at hlogs
      have hexp : (M.natAbs.log2 : Int) + min e e' = (s.apply n - s'.apply n').natAbs.log2 := by
        omega
      have hbinade := normalize_binade (min e e') hM (by omega)
      rwa [hexp] at hbinade

/-! ## Sizes -/

/-- Not less than a power of two. -/
def AtLeast (u : UnpackedFloat) (k : Int) : Prop :=
  (∃ s, u = .infinity s) ∨ ∃ k', k ≤ k' ∧ InBinade u k'

/-- Less than the power of two behind `k`. -/
def AtMost (u : UnpackedFloat) (k : Int) : Prop :=
  (∃ s, u = .zero s) ∨ ∃ k', k' ≤ k ∧ InBinade u k'

/-- What lies in a binade of the format is not changed by packing it. -/
theorem InBinade.unpack_pack {k : Int} (h : InBinade u k) (hk : -1022 ≤ k) (hk' : k ≤ 1023) :
    UnpackedFloat.unpack .binary64 (UnpackedFloat.pack .binary64 u) = u := by
  obtain ⟨s, m, e, hm, rfl, hlog, rfl⟩ := h
  exact unpack_pack_normal hlog hm (by omega) (by omega)

/-- What lies above the binades of the format is packed as an infinity. -/
theorem InBinade.unpack_pack_large {k : Int} (h : InBinade u k) (hk : 1023 < k) :
    ∃ s, UnpackedFloat.unpack .binary64 (UnpackedFloat.pack .binary64 u) = .infinity s := by
  obtain ⟨s, m, e, hm, rfl, hlog, rfl⟩ := h
  have hbias : Format.binary64.exponentBias = 1023 := rfl
  have hbits : Format.binary64.mantissaBits = 53 := rfl
  refine ⟨s, ?_⟩
  simp only [UnpackedFloat.pack, hbias, hbits]
  rw [if_pos (by omega)]
  cases s <;> rfl

/-- What is at least of a binade is so after packing. -/
theorem AtLeast.unpack_pack {k : Int} (h : AtLeast u k) (hk : -1022 ≤ k) :
    AtLeast (UnpackedFloat.unpack .binary64 (UnpackedFloat.pack .binary64 u)) k := by
  obtain ⟨s, rfl⟩ | ⟨k', hle, hu⟩ := h
  · exact .inl ⟨s, by cases s <;> rfl⟩
  · obtain hsmall | hlarge := le_or_gt k' 1023
    · rw [hu.unpack_pack (hk.trans hle) hsmall]
      exact .inr ⟨k', hle, hu⟩
    · exact .inl (hu.unpack_pack_large hlarge)

/-- What is at least of a binade is so in absolute value. -/
theorem AtLeast.abs {k : Int} (h : AtLeast u k) : AtLeast u.abs k := by
  obtain ⟨s, rfl⟩ | ⟨k', hle, s, m, e, hm, rfl, hlog, heq⟩ := h
  · exact .inl ⟨.positive, rfl⟩
  · exact .inr ⟨k', hle, .positive, m, e, hm, rfl, hlog, heq⟩

/-- The exponents of a float end at this one. -/
theorem exponent_le_of_unpack {b : BitVec Format.binary64.numBits} {m : Nat} {e : Int} {hm : 0 < m}
    (h : UnpackedFloat.unpack .binary64 b = .finite s m e hm) : e ≤ 971 := by
  have hbias : (Format.binary64.exponentBias : Int) = 1023 := rfl
  have hbits : (Format.binary64.mantissaBitsWithoutImplicit : Int) = 52 := rfl
  have hlt : (UnpackedFloat.unpackExponent b).toNat < 2 ^ 11 :=
    (UnpackedFloat.unpackExponent b).isLt
  unfold UnpackedFloat.unpack at h
  dsimp only at h
  split_ifs at h with hmax hinfinite hzero
  · cases h
    rw [hzero, BitVec.toNat_zero]
    omega
  · cases h
    have hne : (UnpackedFloat.unpackExponent b).toNat ≠ 2 ^ 11 - 1 :=
      fun heq ↦ hmax (BitVec.eq_of_toNat_eq heq)
    omega

/-- The logarithm of a product is the sum of the logarithms, or one more. -/
theorem log2_mul {a b : Nat} (ha : a ≠ 0) (hb : b ≠ 0) :
    (a * b).log2 = a.log2 + b.log2 ∨ (a * b).log2 = a.log2 + b.log2 + 1 := by
  have hlow := Nat.mul_le_mul (Nat.log2_self_le ha) (Nat.log2_self_le hb)
  have hhigh := Nat.mul_lt_mul'' (Nat.lt_log2_self (n := a)) (Nat.lt_log2_self (n := b))
  rw [← Nat.pow_add] at hlow hhigh
  have hle : a.log2 + b.log2 ≤ (a * b).log2 := (Nat.le_log2 (Nat.mul_ne_zero ha hb)).mpr hlow
  have hlt : (a * b).log2 < a.log2 + 1 + (b.log2 + 1) :=
    (Nat.log2_lt (Nat.mul_ne_zero ha hb)).mpr hhigh
  omega

/-- A float larger than another one of positive sign is not at most that one. -/
theorem not_le_of_sizes {k k' : Int} (hu : AtLeast u k) (habs : u.abs = u) (hv : AtMost v k')
    (h : k' < k) : u.le v = false := by
  obtain ⟨s, rfl⟩ | ⟨i, hi, s, m, e, hm, rfl, hlog, rfl⟩ := hu
  · obtain rfl : s = .positive := by cases habs; rfl
    obtain ⟨s', rfl⟩ | ⟨i', hi', s', m', e', hm', rfl, -, rfl⟩ := hv
    · cases s' <;> rfl
    · cases s' <;> rfl
  · obtain rfl : s = .positive := by cases habs; rfl
    obtain ⟨s', rfl⟩ | ⟨i', hi', s', m', e', hm', rfl, -, rfl⟩ := hv
    · cases s' <;> rfl
    · cases s' with
      | negative => rfl
      | positive =>
        have hgt : compare e e' = .gt := compare_gt_iff_gt.mpr (by omega)
        simp [UnpackedFloat.le, UnpackedFloat.compare, hgt]

/-- A float of the size of the standard tolerance times a whole one. -/
theorem mul_binade {m : Nat} (hm : 0 < m) (hlog : m.log2 = 52) (hv : IsWhole v .positive n)
    (hn : n.log2 ≤ 1023) :
    AtMost (UnpackedFloat.unpack .binary64 (UnpackedFloat.pack .binary64
      (UnpackedFloat.mul .binary64 (.finite .positive m (-82) hm) v))) (n.log2 - 28) := by
  cases hv with
  | zero =>
    have hmul : UnpackedFloat.mul .binary64 (.finite .positive m (-82) hm) (.zero .positive) =
        .zero .positive := rfl
    exact .inl ⟨.positive, by rw [hmul]; rfl⟩
  | @finite _ m' e _ _ hlog' heq =>
    have hsize := log2_of_scaled hlog' heq
    have hne : m ≠ 0 := hm.ne'
    have hne' : m' ≠ 0 := by
      rintro rfl
      rw [Nat.log2_zero] at hlog'
      omega
    obtain ⟨j, hj, hle⟩ : ∃ j, (m * m').log2 = 52 + j ∧ (j = 52 ∨ j = 53) := by
      obtain h | h := log2_mul hne hne'
      · exact ⟨52, by omega, .inl rfl⟩
      · exact ⟨53, by omega, .inr rfl⟩
    have he : -1074 ≤ (-82 + e) + (j : Int) := by omega
    have hround := roundWithAccuracy_binade (s := .positive) hj he
    have hbinade : ∃ k : Int, -1022 ≤ k ∧ k ≤ n.log2 - 28 ∧ InBinade
        (UnpackedFloat.mul .binary64 (.finite .positive m (-82) hm) 
          (.finite .positive m' e (Nat.pos_of_ne_zero hne'))) k := by
      obtain h | h := hround
      · exact ⟨_, by omega, by omega, h⟩
      · exact ⟨_, by omega, by omega, h⟩
    obtain ⟨k, hlow, hhigh, h⟩ := hbinade
    exact .inr ⟨k, hhigh, by rwa [h.unpack_pack hlow (by omega)]⟩

end Unpacked

/-! ## Whole numbers within the tolerance -/

open Unpacked

variable {x y : Float} {s s' : UnpackedFloat.Sign} {n n' : Nat}

/-- The whole number in a float is less than two to the power 1024. -/
theorem log2_le_of_unpacked (hx : IsWhole (unpacked x) s n) : n.log2 ≤ 1023 := by
  generalize hu : unpacked x = u at hx
  cases hx with
  | zero => rw [Nat.log2_zero]; omega
  | finite hlog heq =>
    have hmax := exponent_le_of_unpack hu
    have := (log2_of_scaled hlog heq).2
    omega

/-- The greater of two absolute values is one of them. -/
theorem unpacked_maxFloat_abs (hx : IsWhole (unpacked x) s n) (hy : IsWhole (unpacked y) s' n') :
    IsWhole (unpacked (maxFloat x.abs y.abs)) .positive n ∨
      IsWhole (unpacked (maxFloat x.abs y.abs)) .positive n' := by
  have habs {z : Float} {s : UnpackedFloat.Sign} {n : Nat} (hz : IsWhole (unpacked z) s n) :
      IsWhole (unpacked z.abs) .positive n := by
    rw [unpacked_abs_eq]
    exact hz.abs
  unfold maxFloat
  split_ifs
  · exact .inr (habs hy)
  · exact .inl (habs hx)
  · exact .inr (habs hy)
  · exact .inl (habs hx)

/-- How far two whole numbers are apart, in binary digits, if one of them is small. -/
theorem log2_lt_log2_sub (hn : n < 2 ^ 17) (hne : s.apply n ≠ s'.apply n') (k : Nat)
    (hk : k = n ∨ k = n') : k.log2 < (s.apply n - s'.apply n').natAbs.log2 + 28 := by
  have hd : 1 ≤ (s.apply n - s'.apply n').natAbs := by omega
  by_cases hsmall : k < 2 ^ 28
  · obtain rfl | hpos := Nat.eq_zero_or_pos k
    · rw [Nat.log2_zero]
      omega
    · have := (Nat.log2_lt hpos.ne').mpr hsmall
      omega
  · have hd' : k / 2 ≤ (s.apply n - s'.apply n').natAbs := by
      obtain rfl | rfl := hk
      · omega
      · cases s <;> cases s' <;> simp only [UnpackedFloat.Sign.apply] <;> omega
    have hlog := Nat.log_mono_right (b := 2) hd'
    rw [Nat.log_div_base, ← Nat.log2_eq_log_two, ← Nat.log2_eq_log_two] at hlog
    omega

theorem le_iff_unpacked {x y : Float} : x ≤ y ↔ (unpacked x).le (unpacked y) = true := by
  have h : x ≤ y ↔ decide (((unpacked x).le (unpacked y)) = true) = true := Iff.rfl
  rw [h, decide_eq_true_iff]

/-- The relative tolerance, in its parts. -/
theorem unpacked_standard_rel : ∃ m h, m.log2 = 52 ∧
    unpacked Tolerance.standard.rel = .finite .positive m (-82) h := by
  refine ⟨4835703278458517, by decide, by decide +kernel, ?_⟩
  rfl

/-- Whole numbers that are not far smaller than any that they differ from are within the standard
tolerance of no other. -/
theorem eq_of_close_of_log2_lt (hx : IsWhole (unpacked x) s n) (hy : IsWhole (unpacked y) s' n')
    (hlog : s.apply n ≠ s'.apply n' →
      ∀ k, k = n ∨ k = n' → k.log2 < (s.apply n - s'.apply n').natAbs.log2 + 28)
    (h : Tolerance.standard.close x y = true) : s.apply n = s'.apply n' := by
  by_contra hne
  have hbeq : (x == y) = false := by
    rw [Bool.eq_false_iff, ne_eq, beq_iff_unpacked]
    exact fun heq ↦ hne (hx.eq_of_compare hy heq)
  -- The difference is larger than the tolerance times either of the numbers.
  have hsub : AtLeast (unpacked (x - y).abs) (s.apply n - s'.apply n').natAbs.log2 := by
    rw [unpacked_abs_eq]
    refine AtLeast.abs (AtLeast.unpack_pack ?_ (by omega))
    obtain h | h := hx.sub_binade hy hne
    · exact .inr ⟨_, le_rfl, h⟩
    · exact .inr ⟨_, by push_cast; omega, h⟩
  have htolerance : ∃ k, (k = n ∨ k = n') ∧
      AtMost (unpacked (Tolerance.standard.rel * maxFloat x.abs y.abs)) (k.log2 - 28) := by
    obtain ⟨m, hm, hlog, hrel⟩ := unpacked_standard_rel
    have hmul {k : Nat} (hk : IsWhole (unpacked (maxFloat x.abs y.abs)) .positive k) :
        AtMost (unpacked (Tolerance.standard.rel * maxFloat x.abs y.abs)) (k.log2 - 28) := by
      have h := mul_binade hm hlog hk (log2_le_of_unpacked hk)
      rwa [← hrel] at h
    obtain h | h := unpacked_maxFloat_abs hx hy
    · exact ⟨n, .inl rfl, hmul h⟩
    · exact ⟨n', .inr rfl, hmul h⟩
  obtain ⟨k, hk, htolerance⟩ := htolerance
  have hlog := hlog hne k hk
  simp only [Tolerance.close, hbeq, Bool.false_eq_true, if_false] at h
  split_ifs at h with hfinite
  rw [decide_eq_true_iff, le_iff_unpacked] at h
  have hmost : AtMost (unpacked (maxFloat (Tolerance.standard.rel * maxFloat x.abs y.abs)
      Tolerance.standard.abs)) (k.log2 - 28) := by
    have hzero : AtMost (unpacked Tolerance.standard.abs) (k.log2 - 28) := .inl ⟨.positive, rfl⟩
    rw [maxFloat]
    split_ifs <;> assumption
  rw [not_le_of_sizes hsub (unpacked_abs _) hmost (by omega)] at h
  cases h

/-- A small whole number is within the standard tolerance of no other whole number. -/
theorem eq_of_close_standard (hx : IsWhole (unpacked x) s n) (hy : IsWhole (unpacked y) s' n')
    (hn : n < 2 ^ 17) (h : Tolerance.standard.close x y = true) : s.apply n = s'.apply n' :=
  eq_of_close_of_log2_lt hx hy (fun hne ↦ log2_lt_log2_sub hn hne) h

/-- Whole numbers of up to eight digits are within the standard tolerance only of themselves. -/
theorem eq_of_close_standard_of_lt (hx : IsWhole (unpacked x) s n) (hy : IsWhole (unpacked y) s' n')
    (hn : n < 10 ^ 8) (hn' : n' < 10 ^ 8) (h : Tolerance.standard.close x y = true) :
    s.apply n = s'.apply n' := by
  refine eq_of_close_of_log2_lt hx hy (fun _ k hk ↦ ?_) h
  have hk : k < 2 ^ 28 := by omega
  obtain rfl | hpos := Nat.eq_zero_or_pos k
  · rw [Nat.log2_zero]
    omega
  · have := (Nat.log2_lt hpos.ne').mpr hk
    omega

/-! ## Integers as floats -/

theorem unpacked_one : unpacked 1.0 = .finite .positive (2 ^ 52) (-52) (Nat.two_pow_pos 52) := rfl

/-- The digits of a natural number, moved to the front of a mantissa. -/
theorem isWhole_shifted (hpos : 0 < n) (hn : n < 2 ^ 53) :
    IsWhole (.finite s (n * 2 ^ (52 - n.log2)) (0 - (52 - n.log2 : Nat))
      (Nat.mul_pos hpos (Nat.two_pow_pos _))) s n := by
  have hlog : n.log2 ≤ 52 := Nat.lt_succ_iff.mp ((Nat.log2_lt hpos.ne').mpr hn)
  refine .finite ?_ ?_
  · rw [log2_mul_two_pow hpos.ne']
    omega
  · have hup : (0 - ((52 - n.log2 : Nat) : Int)).toNat = 0 := by omega
    have hdown : (-(0 - ((52 - n.log2 : Nat) : Int))).toNat = 52 - n.log2 := by omega
    rw [hup, hdown, Nat.pow_zero, Nat.mul_one]

/-- A small number is converted exactly: it is shifted up to the full width of the mantissa. -/
theorem unpacked_toFloat (hpos : 0 < n) (hn : n < 2 ^ 53) : unpacked n.toUInt64.toFloat =
    .finite .positive (n * 2 ^ (52 - n.log2)) (0 - (52 - n.log2 : Nat))
      (Nat.mul_pos hpos (Nat.two_pow_pos _)) := by
  have hlog : n.log2 ≤ 52 := Nat.lt_succ_iff.mp ((Nat.log2_lt hpos.ne').mpr hn)
  have hnat : n.toUInt64.toNat = n := by
    rw [Nat.toUInt64_eq, UInt64.toNat_ofNat_of_lt']
    exact hn.trans (by decide)
  have hcompare : compare (n : Int) 0 = .gt := compare_gt_iff_gt.mpr (by omega)
  have hround : UnpackedFloat.ofNat .binary64 n.toUInt64.toNat =
      .finite .positive (n * 2 ^ (52 - n.log2)) (0 - (52 - n.log2 : Nat))
        (Nat.mul_pos hpos (Nat.two_pow_pos _)) := by
    rw [hnat]
    simp only [UnpackedFloat.ofNat, UnpackedFloat.ofInt, UnpackedFloat.normalize, hcompare,
      Int.toNat_natCast]
    exact round_exact hpos.ne' hlog (by omega)
  have hbinade := (isWhole_shifted (s := .positive) hpos hn).inBinade hpos.ne'
  change UnpackedFloat.unpack .binary64 (UnpackedFloat.pack .binary64
    (UnpackedFloat.ofNat .binary64 n.toUInt64.toNat)) = _
  rw [hround]
  exact hbinade.unpack_pack (by omega) (by omega)

/-- A natural number below two to the power 53 is held exactly. -/
theorem isWhole_ofNat (hn : n < 2 ^ 53) : IsWhole (unpacked (Float.ofNat n)) .positive n := by
  obtain rfl | hpos := Nat.eq_zero_or_pos n
  · exact .zero
  have hshort : Float.ofNat n = n.toUInt64.toFloat * 1.0 := by
    change Float.ofScientific n false 0 = _
    rw [Float.ofScientific, dif_pos ⟨hn, by decide⟩]
    rfl
  have hshifted := isWhole_shifted (s := .positive) hpos hn
  have hlog : n.log2 ≤ 52 := Nat.lt_succ_iff.mp ((Nat.log2_lt hpos.ne').mpr hn)
  have hmul : UnpackedFloat.mul .binary64 (unpacked n.toUInt64.toFloat) (unpacked 1.0) =
      unpacked n.toUInt64.toFloat := by
    have hfull : (n * 2 ^ (52 - n.log2)).log2 = 52 := by rw [log2_mul_two_pow hpos.ne']; omega
    have hexact := roundWithAccuracy_exact (s := .positive) (j := 52)
      (e := (0 - (52 - n.log2 : Nat)) + -52) hfull (Nat.mul_pos hpos (Nat.two_pow_pos _)) (by omega)
    rw [unpacked_toFloat hpos hn, unpacked_one]
    exact hexact.trans (finite_congr rfl (by omega) _)
  have hfloat : unpacked (Float.ofNat n) =
    UnpackedFloat.unpack .binary64 (UnpackedFloat.pack .binary64
      (UnpackedFloat.mul .binary64 (unpacked n.toUInt64.toFloat) (unpacked 1.0))) := by
    rw [hshort]
    rfl
  rw [hfloat, hmul, unpacked_toFloat hpos hn,
    (hshifted.inBinade hpos.ne').unpack_pack (by omega) (by omega)]
  exact hshifted

/-- The negative of a float holds the negative number. -/
theorem isWhole_neg (h : IsWhole (unpacked x) s n) : IsWhole (unpacked (-x)) (-s) n := by
  rw [unpacked_neg]
  generalize unpacked x = u at h
  cases h with
  | zero => exact .zero
  | finite hlog heq => exact .finite hlog heq

/-- A natural number of more digits than a float has. -/
theorem unpacked_ofNat_of_large (hn : 2 ^ 53 ≤ n) :
    unpacked (Float.ofNat n) =
      UnpackedFloat.unpack .binary64
        (UnpackedFloat.pack .binary64
          (UnpackedFloat.roundWithAccuracy .binary64 .positive (n * 2 ^ 53) (-53) .exact)) := by
  have hlong : unpacked (Float.ofNat n) =
    UnpackedFloat.unpack .binary64 (UnpackedFloat.pack .binary64
      (UnpackedFloat.ofScientific .binary64 n 0)) := by
    change unpacked (Float.ofScientific n false 0) = _
    rw [Float.ofScientific, dif_neg (by omega)]
    rfl
  have hlog : 53 ≤ n.log2 := (Nat.le_log2 (by omega)).mpr hn
  have hbits : (2 ^ Format.binary64.exponentBits : Int) = 2048 := rfl
  rw [hlong, UnpackedFloat.ofScientific, dif_neg (by omega), if_neg (by decide), if_neg (by omega),
    if_pos le_rfl, ← Nat.shiftLeft_eq, ← Nat.mul_one (n <<< 53)]
  rfl

/-- It is infinite or has more digits than fit. -/
theorem ofNat_large (hn : 2 ^ 53 ≤ n) : (Float.ofNat n).isFinite = false ∨
    ∃ s k, 2 ^ 53 ≤ k ∧ IsWhole (unpacked (Float.ofNat n)) s k := by
  have hne : n ≠ 0 := by omega
  have hlog : 53 ≤ n.log2 := (Nat.le_log2 hne).mpr hn
  have hfull : (n * 2 ^ 53).log2 = 52 + (n.log2 + 1) := by
    rw [log2_mul_two_pow hne]
    omega
  have hfinite : (Float.ofNat n).isFinite = (unpacked (Float.ofNat n)).isFinite := rfl
  rw [hfinite, unpacked_ofNat_of_large hn]
  obtain ⟨k, hk, hbinade⟩ : ∃ k : Int, 53 ≤ k ∧
      InBinade (UnpackedFloat.roundWithAccuracy .binary64 .positive (n * 2 ^ 53) (-53) .exact)
        k := by
    obtain h | h := roundWithAccuracy_binade (s := .positive) (e := -53) hfull (by omega)
    · exact ⟨_, by omega, h⟩
    · exact ⟨_, by omega, h⟩
  obtain hsmall | hlarge := le_or_gt k 1023
  · rw [hbinade.unpack_pack (by omega) hsmall]
    obtain ⟨s, m, e, hm, heq, hlogm, rfl⟩ := hbinade
    have hup : e.toNat ≠ 0 := by omega
    have hdown : (-e).toNat = 0 := by omega
    refine .inr ⟨s, m * 2 ^ e.toNat, ?_, ?_⟩
    · calc 2 ^ 53 = 2 ^ 52 * 2 ^ 1 := rfl
        _ ≤ m * 2 ^ e.toNat := Nat.mul_le_mul (hlogm ▸ Nat.log2_self_le hm.ne')
          (Nat.pow_le_pow_right two_pos (Nat.one_le_iff_ne_zero.mpr hup))
    · rw [heq]
      exact .finite hlogm (by rw [hdown, Nat.pow_zero, Nat.mul_one])
  · obtain ⟨s, hs⟩ := hbinade.unpack_pack_large hlarge
    rw [hs]
    exact .inl rfl

/-- There is a float with just this value. -/
def IsExact (n : Nat) : Prop := n < 2 ^ 53 ∨ ∃ m k, m.log2 = 52 ∧ k ≤ 971 ∧ n = m * 2 ^ k

/-- The number that a float holds can be held exactly. -/
theorem isExact_of_isWhole (h : IsWhole (unpacked x) s n) : IsExact n := by
  generalize hu : unpacked x = u at h
  cases h with
  | zero => exact .inl (Nat.two_pow_pos 53)
  | @finite _ m e hm _ hlog heq =>
    have hmax := exponent_le_of_unpack hu
    obtain he | he := le_total 0 e
    · have hnone : (-e).toNat = 0 := by omega
      rw [hnone, Nat.pow_zero, Nat.mul_one] at heq
      exact .inr ⟨m, e.toNat, hlog, by omega, heq.symm⟩
    · have hnone : e.toNat = 0 := by omega
      rw [hnone, Nat.pow_zero, Nat.mul_one] at heq
      have hlt : m < 2 ^ 53 := (Nat.log2_lt hm.ne').mp (by omega)
      exact .inl (lt_of_le_of_lt (Nat.le_mul_of_pos_right n (Nat.two_pow_pos _)) (heq ▸ hlt))

/-- The value of a float has no digits that would have to be rounded. -/
theorem isWhole_ofNat_of_isExact (h : IsExact n) :
    IsWhole (unpacked (Float.ofNat n)) .positive n := by
  obtain hsmall | hlarge := lt_or_ge n (2 ^ 53)
  · exact isWhole_ofNat hsmall
  obtain hsmall | ⟨m, k, hlog, hk, rfl⟩ := h
  · exact isWhole_ofNat hsmall
  have hpos : 0 < m := Nat.pos_of_ne_zero fun h ↦ by rw [h, Nat.log2_zero] at hlog; cases hlog
  have hround :=
    roundWithAccuracy_exact (s := .positive) (j := k + 53) (e := -53) hlog hpos (by omega)
  rw [Nat.pow_add, ← Nat.mul_assoc] at hround
  rw [unpacked_ofNat_of_large hlarge, hround, unpack_pack_normal hlog hpos (by omega) (by omega)]
  refine .finite hlog ?_
  have hup : (-53 + ((k + 53 : Nat) : Int)).toNat = k := by omega
  have hdown : (-(-53 + ((k + 53 : Nat) : Int))).toNat = 0 := by omega
  rw [hup, hdown, Nat.pow_zero, Nat.mul_one]

/-- The float is the integer. -/
def HoldsInt (x : Float) (z : Int) : Prop :=
  ∃ s, IsWhole (unpacked x) s z.natAbs ∧ s.apply z.natAbs = z

variable {z z' : Int}

/-- Floats that hold one integer are equal. -/
theorem HoldsInt.beq (hx : HoldsInt x z) (hy : HoldsInt y z) : (x == y) = true := by
  obtain ⟨s, hx, hs⟩ := hx
  obtain ⟨s', hy, hs'⟩ := hy
  exact beq_iff_unpacked.mpr (hx.compare_eq hy (hs.trans hs'.symm))

/-- Equal floats that hold integers hold the same one. -/
theorem HoldsInt.eq_of_beq (hx : HoldsInt x z) (hy : HoldsInt y z') (h : (x == y) = true) :
    z = z' := by
  obtain ⟨s, hx, hs⟩ := hx
  obtain ⟨s', hy, hs'⟩ := hy
  rw [← hs, ← hs']
  exact hx.eq_of_compare hy (beq_iff_unpacked.mp h)

/-- Small integers that are close within the standard tolerance are equal: they differ by less than
one. -/
theorem HoldsInt.eq_of_close (hx : HoldsInt x z) (hy : HoldsInt y z') (hz : z.natAbs < 2 ^ 17)
    (h : Tolerance.standard.close x y = true) : z = z' := by
  obtain ⟨s, hx, hs⟩ := hx
  obtain ⟨s', hy, hs'⟩ := hy
  rw [← hs, ← hs']
  exact eq_of_close_standard hx hy hz h

/-- Integers of eight digits at most that are close within the standard tolerance are equal. -/
theorem HoldsInt.eq_of_close_of_lt (hx : HoldsInt x z) (hy : HoldsInt y z') (hz : z.natAbs < 10 ^ 8)
    (hz' : z'.natAbs < 10 ^ 8) (h : Tolerance.standard.close x y = true) : z = z' := by
  obtain ⟨s, hx, hs⟩ := hx
  obtain ⟨s', hy, hs'⟩ := hy
  rw [← hs, ← hs']
  exact eq_of_close_standard_of_lt hx hy hz hz' h

/-- Integers that are not far smaller than what they differ by are not within the standard
tolerance. -/
theorem HoldsInt.close_eq_false (hx : HoldsInt x z) (hy : HoldsInt y z') (hne : z ≠ z')
    (hlog : ∀ k, k = z.natAbs ∨ k = z'.natAbs → k.log2 < (z - z').natAbs.log2 + 28) :
    Tolerance.standard.close x y = false := by
  obtain ⟨s, hx, hs⟩ := hx
  obtain ⟨s', hy, hs'⟩ := hy
  rw [Bool.eq_false_iff]
  intro h
  refine hne ?_
  rw [← hs, ← hs'] at hlog ⊢
  exact eq_of_close_of_log2_lt hx hy (fun _ k hk ↦ hlog k (by rwa [hs, hs'])) h

theorem HoldsInt.neg (h : HoldsInt x z) : HoldsInt (-x) (-z) := by
  obtain ⟨s, hx, hs⟩ := h
  refine ⟨-s, ?_, ?_⟩
  · rw [Int.natAbs_neg]
    exact isWhole_neg hx
  · rw [Int.natAbs_neg]
    cases s with
    | positive => exact congrArg Neg.neg hs
    | negative => exact Int.eq_neg_comm.mp hs.symm

/-- A small natural number is held by the float that is made of it. -/
theorem holdsInt_ofNat (hn : n < 2 ^ 53) : HoldsInt (Float.ofNat n) n :=
  ⟨.positive, isWhole_ofNat hn, rfl⟩

/-- An exact natural number is held by the float that is made of it. -/
theorem holdsInt_ofNat_of_isExact (hn : IsExact n) : HoldsInt (Float.ofNat n) n :=
  ⟨.positive, isWhole_ofNat_of_isExact hn, rfl⟩

theorem HoldsInt.isExact (h : HoldsInt x z) : IsExact z.natAbs := by
  obtain ⟨s, h, -⟩ := h
  exact isExact_of_isWhole h

/-- A small integer is held by the float that is made of it. -/
theorem holdsInt_ofInt (hz : z.natAbs < 2 ^ 53) : HoldsInt (Float.ofInt z) z := by
  cases z with
  | ofNat n => exact holdsInt_ofNat hz
  | negSucc n => exact (holdsInt_ofNat hz).neg

/-- What an integer of any length is read as. -/
def IsIntegral (x : Float) : Prop := x.isFinite = false ∨ ∃ z, HoldsInt x z

theorem IsIntegral.neg (h : IsIntegral x) : IsIntegral (-x) := by
  obtain h | ⟨z, h⟩ := h
  · left
    change (unpacked x).isFinite = false at h
    change (unpacked (-x)).isFinite = false
    rw [unpacked_neg]
    revert h
    cases unpacked x <;> exact id
  · exact .inr ⟨-z, h.neg⟩

/-- The float that is made of a natural number is integral, rounded or infinite as it may be. -/
theorem isIntegral_ofNat (n : Nat) : IsIntegral (Float.ofNat n) := by
  obtain hsmall | hlarge := lt_or_ge n (2 ^ 53)
  · exact .inr ⟨n, holdsInt_ofNat hsmall⟩
  · refine (ofNat_large hlarge).imp_right ?_
    rintro ⟨s, k, -, hk⟩
    refine ⟨s.apply k, s, ?_, ?_⟩
    · cases s <;> simpa [UnpackedFloat.Sign.apply] using hk
    · cases s <;> simp [UnpackedFloat.Sign.apply]

/-- Within the tolerance of a small integer there is no other integer. -/
theorem IsIntegral.holdsInt_of_close (hx : IsIntegral x) (hz : z.natAbs < 2 ^ 17)
    (h : Tolerance.standard.close (Float.ofInt z) x = true) : HoldsInt x z := by
  have hz' : z.natAbs < 2 ^ 53 := hz.trans (by decide)
  obtain hinfinite | ⟨z', hx⟩ := hx
  · have hbeq : (Float.ofInt z == x) = true := by
      unfold Tolerance.close at h
      split_ifs at h with hbeq hfinite
      · exact hbeq
      · simp [hinfinite] at hfinite
    obtain ⟨s, hw, -⟩ := holdsInt_ofInt hz'
    have hfinite := hw.isFinite_of_compare (beq_iff_unpacked.mp hbeq)
    change (unpacked x).isFinite = false at hinfinite
    rw [hfinite] at hinfinite
    cases hinfinite
  · obtain rfl := (holdsInt_ofInt hz').eq_of_close hx hz h
    exact hx

end TransportDeck
