import Mathlib
import PageText.Number.Binary32

/-!
# Widening loses nothing

A single-precision number survives the way to double precision and back. Both ways decode
one format and round into the other, so the law rests on two facts: decoding and encoding
undo each other, and rounding a value that the format can hold changes at most the way it
is written. Other numbers, which rounding does change, are not treated here.
-/

namespace PageText.Number.Binary32

open Float.Model UnpackedFloat

/-- Doubling `k` times moves the leading bit by `k`. -/
theorem log2_scaled {m : Nat} (hm : m ≠ 0) (k : Nat) : (m * 2 ^ k).log2 = m.log2 + k := by
  induction k with
  | zero => rw [Nat.pow_zero, Nat.mul_one, Nat.add_zero]
  | succ k ih =>
    have hscaled : m * 2 ^ k ≠ 0 := Nat.mul_ne_zero hm (Nat.ne_of_gt (Nat.two_pow_pos k))
    have htwice : m * 2 ^ (k + 1) = 2 * (m * 2 ^ k) := by
      rw [Nat.pow_succ, ← Nat.mul_assoc, Nat.mul_comm]
    rw [htwice, Nat.log2_two_mul hscaled, ih, Nat.add_assoc]

/-- Trading factors of two for the exponent keeps the position of the leading bit. -/
theorem totalExponent_scaled {m : Nat} (hm : m ≠ 0) (e : Int) (k : Nat) :
    totalExponent (m * 2 ^ k) (e - k) = totalExponent m e := by
  rw [totalExponent, totalExponent, log2_scaled hm]
  omega

/-- Shifting out bits that are all zero is exact. -/
theorem shiftRight_scaled (m k : Nat) :
    (⟨m * 2 ^ k, false, false⟩ : ExtendedMantissa) >>> k = ⟨m, false, false⟩ := by
  induction k generalizing m with
  | zero =>
    rw [Nat.pow_zero, Nat.mul_one]
    rfl
  | succ k ih =>
    have hfactor : m * 2 ^ (k + 1) = m * 2 * 2 ^ k := by
      rw [Nat.pow_succ, Nat.mul_assoc, Nat.mul_comm (2 ^ k)]
    have hlast (em : ExtendedMantissa) : em >>> (k + 1) = (em >>> k).shiftRightOne := rfl
    rw [hfactor, hlast, ih, ExtendedMantissa.shiftRightOne, Nat.mul_div_cancel m (by decide),
      Nat.mul_mod_left]
    rfl

/-- A value is exact in a format if its exponent is the one that the format asks for. -/
def IsExact (spec : Format) (m : Nat) (e : Int) : Prop :=
  spec.targetExponent (totalExponent m e) = e

/-- Rounding a mantissa with spare zeros gives an exact value without them. -/
theorem roundWithAccuracy_scaled {spec : Format} {m : Nat} {e : Int} (hm : 0 < m)
    (h : IsExact spec m e) (sign : Sign) (k : Nat) :
    roundWithAccuracy spec sign (m * 2 ^ k) (e - k) .exact = .finite sign m e hm := by
  have hne : m ≠ 0 := Nat.ne_of_gt hm
  have hshift (k : Nat) : shiftToTargetExponent spec (m * 2 ^ k) (e - k) .exact =
      (⟨m, false, false⟩, e) := by
    have hk : (e - (e - k)).toNat = k := by omega
    have he : e - (k : Int) + k = e := by omega
    rw [shiftToTargetExponent, totalExponent_scaled hne, h, shiftToExponent, hk, he,
      ExtendedMantissa.ofMantissaAndAccuracy, shiftRight_scaled]
  have hagain : shiftToTargetExponent spec m e .exact = (⟨m, false, false⟩, e) := by
    simpa using hshift 0
  have hrounded : ExtendedMantissa.roundedMantissa ⟨m, false, false⟩ = m := rfl
  simp only [roundWithAccuracy, hshift k, hrounded, hagain, dif_neg hne]

/-- Rounding does not change a value that the format can hold, however it is written. -/
theorem round_scaled {spec : Format} {m : Nat} {e : Int} (hm : 0 < m) (h : IsExact spec m e)
    (sign : Sign) (k : Nat) : round spec sign (m * 2 ^ k) (e - k) = .finite sign m e hm := by
  have hk : (e - (k : Int) - e).toNat = 0 := by omega
  have hz : e - (k : Int) - (0 : Nat) = e - k := by omega
  rw [UnpackedFloat.round, totalExponent_scaled (Nat.ne_of_gt hm), h]
  simp only [decreaseExponent, hk, Nat.shiftLeft_zero, hz]
  exact roundWithAccuracy_scaled hm h sign k

/-- Rounding to a format with room for all digits appends zeros to them. -/
theorem round_of_room {spec : Format} {m : Nat} {e : Int} (hm : 0 < m) (k : Nat)
    (h : IsExact spec (m * 2 ^ k) (e - k)) (sign : Sign) :
    round spec sign m e =
      .finite sign (m * 2 ^ k) (e - k) (Nat.mul_pos hm (Nat.two_pow_pos k)) := by
  have hpos : 0 < m * 2 ^ k := Nat.mul_pos hm (Nat.two_pow_pos k)
  rw [IsExact, totalExponent_scaled (Nat.ne_of_gt hm)] at h
  have hk : (e - (e - k)).toNat = k := by omega
  rw [UnpackedFloat.round, h]
  simp only [decreaseExponent, hk, Nat.shiftLeft_eq]
  have hexact : IsExact spec (m * 2 ^ k) (e - k) := by
    rw [IsExact, totalExponent_scaled (Nat.ne_of_gt hm), h]
  simpa using roundWithAccuracy_scaled hpos hexact sign 0

/-- The digit before the point is the leading one. -/
theorem toNat_one_append {n : Nat} (digits : BitVec n) :
    (1#1 ++ digits).toNat = 2 ^ n + digits.toNat := by
  rw [BitVec.toNat_append, ← Nat.shiftLeft_add_eq_or_of_lt digits.isLt, Nat.shiftLeft_eq,
    BitVec.toNat_one (by decide), Nat.one_mul]

/-- A number of the double format whose digits fill the mantissa stores its exponent moved
by the bias, and its digits without the leading one. -/
theorem pack_normal {sign : Sign} {m stored : Nat} {e : Int} (hm : 0 < m) (hl : m.log2 = 52)
    (hs : (stored : Int) = e + 1075) (hrange : stored ≤ 2046) :
    UnpackedFloat.pack .binary64 (.finite sign m e hm) =
      packComponents .binary64 sign (BitVec.ofNat 11 stored) (BitVec.ofNat 52 m) := by
  have hbias : Format.binary64.exponentBias = 1023 := by decide
  have hplace : (e + Format.binary64.exponentBias +
      Format.binary64.mantissaBitsWithoutImplicit).toNat = stored := by
    rw [hbias]
    change (e + 1023 + 52).toNat = stored
    omega
  have hsize : ¬2 ^ Format.binary64.exponentBits ≤ stored + 1 := by
    change ¬2 ^ 11 ≤ stored + 1
    omega
  simp only [UnpackedFloat.pack, hplace, hl]
  rw [if_neg hsize]
  rfl

/-- A number of the double format whose digits fill the mantissa is read back. -/
theorem unpack_pack_normal {sign : Sign} {m : Nat} {e : Int} (hm : 0 < m)
    (hl : m.log2 = 52) (hlow : -1074 ≤ e) (hhigh : e ≤ 971) :
    UnpackedFloat.unpack .binary64 (UnpackedFloat.pack .binary64 (.finite sign m e hm)) =
      .finite sign m e hm := by
  have hbias : Format.binary64.exponentBias = 1023 := by decide
  obtain ⟨hmin, hmax⟩ := (Nat.log2_eq_iff (Nat.ne_of_gt hm)).1 hl
  obtain ⟨stored, hs⟩ : ∃ stored : Nat, (stored : Int) = e + 1075 :=
    ⟨(e + 1075).toNat, by omega⟩
  have hword : (BitVec.ofNat 11 stored).toNat = stored := Nat.mod_eq_of_lt (by omega)
  -- The stored exponent is neither of the two that mark other kinds of numbers.
  have hones : BitVec.ofNat 11 stored ≠ -1#11 := by
    intro h
    have ht : stored = 2047 := hword.symm.trans (congrArg BitVec.toNat h)
    omega
  have hzeros : BitVec.ofNat 11 stored ≠ 0#11 := by
    intro h
    have ht : stored = 0 := hword.symm.trans (congrArg BitVec.toNat h)
    omega
  have hdigits : (1#1 ++ BitVec.ofNat 52 m).toNat = m := by
    rw [toNat_one_append, BitVec.toNat_ofNat]
    omega
  have hexponent : ((BitVec.ofNat 11 stored).toNat : Int) -
      (Format.binary64.exponentBias + Format.binary64.mantissaBitsWithoutImplicit) = e := by
    rw [hword, hbias]
    change (stored : Int) - (1023 + 52) = e
    omega
  rw [pack_normal hm hl hs (by omega)]
  simp only [UnpackedFloat.unpack, unpackSign_packComponents, Sign.ofBitVec_toBitVec,
    unpackExponent_packComponents, unpackMantissa_packComponents]
  rw [if_neg hones, if_neg hzeros]
  simp only [hexponent, hdigits]

/-- The digits and exponents of single-precision numbers: a full mantissa, or fewer digits
at the least exponent. -/
def IsSingle (m : Nat) (e : Int) : Prop :=
  (m.log2 = 23 ∧ -149 ≤ e ∧ e ≤ 104) ∨ (m.log2 < 23 ∧ e = -149)

/-- Either way there are at most 24 digits, and the exponent is within the range. -/
theorem IsSingle.bounds {m : Nat} {e : Int} (h : IsSingle m e) :
    m.log2 ≤ 23 ∧ -149 ≤ e ∧ e ≤ 104 := by
  rcases h with ⟨hl, hlow, hhigh⟩ | ⟨hl, he⟩
  · exact ⟨Nat.le_of_eq hl, hlow, hhigh⟩
  · exact ⟨Nat.le_of_lt hl, by omega, by omega⟩

/-- The exponent of a single-precision number is the one that its format asks for. -/
theorem IsSingle.isExact {m : Nat} {e : Int} (h : IsSingle m e) : IsExact .binary32 m e := by
  change max (m.log2 + 1 + e - 24) (-149) = e
  rcases h with ⟨hl, _, _⟩ | ⟨hl, he⟩ <;> omega

/-- A single-precision number with zeros appended to its digits is a full double-precision
one, as its exponents are far inside the range. -/
theorem IsSingle.isExact_scaled {m : Nat} {e : Int} (hm : 0 < m) (h : IsSingle m e) :
    IsExact .binary64 (m * 2 ^ (52 - m.log2)) (e - (52 - m.log2 : Nat)) := by
  rw [IsExact, totalExponent_scaled (Nat.ne_of_gt hm)]
  change max (m.log2 + 1 + e - 53) (-1074) = _
  obtain ⟨hdigits, hlow, _⟩ := h.bounds
  omega

/-- A finite number that is decoded has all its digits within the format: without a stored
exponent it has few, else all but the leading one are stored. -/
theorem digits_of_unpack {spec : Format} {bits : BitVec spec.numBits} {sign : Sign} {m : Nat}
    {e : Int} {hm : 0 < m} (h : UnpackedFloat.unpack spec bits = .finite sign m e hm) :
    ∃ stored : Nat, stored + 1 < 2 ^ spec.exponentBits ∧
      ((m.log2 = spec.mantissaBitsWithoutImplicit ∧ 0 < stored ∧
          e = stored - (spec.exponentBias + spec.mantissaBitsWithoutImplicit)) ∨
        (m.log2 < spec.mantissaBitsWithoutImplicit ∧
          e = 1 - (spec.exponentBias + spec.mantissaBitsWithoutImplicit))) := by
  have hdigits := (unpackMantissa bits).isLt
  have hstored := (unpackExponent bits).isLt
  simp only [UnpackedFloat.unpack] at h
  split at h
  · split at h <;> cases h
  · rename_i hones
    have hlast : (unpackExponent bits).toNat + 1 ≠ 2 ^ spec.exponentBits := fun hs =>
      hones (BitVec.eq_of_toNat_eq (by
        rw [BitVec.neg_one_eq_allOnes, BitVec.toNat_allOnes]
        omega))
    refine ⟨(unpackExponent bits).toNat, by omega, ?_⟩
    split at h
    · rename_i hzeros
      split at h
      · cases h
      · cases h
        refine Or.inr ⟨(Nat.log2_lt (Nat.ne_of_gt hm)).2 hdigits, ?_⟩
        rw [hzeros]
        simp
        omega
    · rename_i hzeros
      have hfirst : (unpackExponent bits).toNat ≠ 0 := fun hs =>
        hzeros (BitVec.eq_of_toNat_eq (by simpa using hs))
      cases h
      refine Or.inl ⟨(Nat.log2_eq_iff (Nat.ne_of_gt hm)).2 ?_, Nat.pos_of_ne_zero hfirst, rfl⟩
      rw [toNat_one_append, Nat.pow_succ]
      omega

/-- A finite number that is decoded is a single-precision one. -/
theorem isSingle_of_unpack {bits : BitVec Format.binary32.numBits} {sign : Sign} {m : Nat}
    {e : Int} {hm : 0 < m} (h : UnpackedFloat.unpack .binary32 bits = .finite sign m e hm) :
    IsSingle m e := by
  obtain ⟨stored, hlt, hm⟩ := digits_of_unpack h
  change stored + 1 < 2 ^ 8 at hlt
  change (m.log2 = 23 ∧ 0 < stored ∧ e = stored - (127 + 23)) ∨
    (m.log2 < 23 ∧ e = 1 - (127 + 23)) at hm
  rw [IsSingle]
  omega

/-- Encoding a decoded number gives the number back. -/
theorem pack_toModel_unpack (x : Float32) :
    Float32.ofModel (Float32.Model.pack x.toModel.unpack) = x := by
  obtain ⟨bits, hv⟩ := x
  have hbits := pack_unpack_of_valid hv
  simp only [Float32.Model.pack, Float32.Model.unpack, hbits, UInt32.ofBitVec_toBitVec]

/-- A number widened and narrowed again is the same number. -/
theorem narrow_widen (x : Float32) : narrow (widen x) = x := by
  have hself := pack_toModel_unpack x
  cases hu : x.toModel.unpack with
  | notANumber =>
    rw [hu] at hself
    rw [widen, hu]
    exact hself
  | infinity sign =>
    rw [hu] at hself
    rw [widen, hu]
    cases sign <;> exact hself
  | zero sign =>
    rw [hu] at hself
    rw [widen, hu]
    cases sign <;> exact hself
  | finite sign m e hm =>
    rw [hu] at hself
    have hsingle : IsSingle m e := isSingle_of_unpack hu
    obtain ⟨k, hk⟩ : ∃ k, k = 52 - m.log2 := ⟨_, rfl⟩
    have hroom : IsExact .binary64 (m * 2 ^ k) (e - k) := hk ▸ hsingle.isExact_scaled hm
    have hpos : 0 < m * 2 ^ k := Nat.mul_pos hm (Nat.two_pow_pos k)
    obtain ⟨hdigits, hlow, hhigh⟩ := hsingle.bounds
    have hlog : (m * 2 ^ k).log2 = 52 := by
      rw [log2_scaled (Nat.ne_of_gt hm)]
      omega
    have hback : (Float.Model.pack (.finite sign (m * 2 ^ k) (e - k) hpos)).unpack =
        .finite sign (m * 2 ^ k) (e - k) hpos :=
      unpack_pack_normal hpos hlog (by omega) (by omega)
    rw [widen, hu]
    simp only [round_of_room hm k hroom, narrow, hback, round_scaled hm hsingle.isExact]
    exact hself

end PageText.Number.Binary32
