import PageText.Proofs.Nearest
import PageText.Proofs.Numeral

/-!
# Numerals are read as the nearest doubles

The reader of decimals divides two numbers of binary digits, or multiplies two if there are no
places. Quotients keep enough digits to be rounded once, and the remainder of the division tells
on which side of a half the rest is. So every numeral has the double that is nearest to the
decimal it spells, whatever the count of its digits, with the sign that was written.
-/

namespace PageText.Number

namespace Double

open Float.Model UnpackedFloat Binary32

/-! ## Quotients and decimals -/

/-- A quotient has a full mantissa if its dividend has that many more digits. -/
theorem full_quotient {m₁ m₂ k : Nat} (h₁ : 0 < m₁) (h₂ : 0 < m₂)
    (hk : 52 + (m₂.log2 + 1) ≤ m₁.log2 + k) : 52 ≤ (m₁ <<< k / m₂).log2 := by
  have hfull : 2 ^ 52 * m₂ ≤ m₁ * 2 ^ k := by
    calc 2 ^ 52 * m₂ ≤ 2 ^ 52 * 2 ^ (m₂.log2 + 1) := Nat.mul_le_mul_left _ Nat.lt_log2_self.le
      _ = 2 ^ (52 + (m₂.log2 + 1)) := (Nat.pow_add ..).symm
      _ ≤ 2 ^ (m₁.log2 + k) := Nat.pow_le_pow_right (by decide) hk
      _ = 2 ^ m₁.log2 * 2 ^ k := Nat.pow_add ..
      _ ≤ m₁ * 2 ^ k := Nat.mul_le_mul_right _ (Nat.log2_self_le (Nat.ne_of_gt h₁))
  have hquotient : 2 ^ 52 ≤ m₁ <<< k / m₂ := by
    rwa [Nat.shiftLeft_eq, Nat.le_div_iff_mul_le h₂]
  exact (Nat.le_log2 (by omega)).2 hquotient

/-- The quotient of two numbers of binary digits. -/
theorem isRounded_div {m₁ m₂ : Nat} (e₁ e₂ : Int) (h₁ : 0 < m₁) (h₂ : 0 < m₂) (s₁ s₂ : Sign) :
    IsRounded (s₁ / s₂) (m₁ * 2 ^ e₁ / (m₂ * 2 ^ e₂))
      (UnpackedFloat.div .binary64 (.finite s₁ m₁ e₁ h₁) (.finite s₂ m₂ e₂ h₂)) := by
  obtain ⟨E, hE⟩ : ∃ E, E = min (e₁ - e₂)
      (max ((m₁.log2 + 1 + e₁) - (m₂.log2 + 1 + e₂) - 53) (-1074)) := ⟨_, rfl⟩
  obtain ⟨k, hk⟩ : ∃ k : Nat, (k : Int) = e₁ - e₂ - E := ⟨(e₁ - e₂ - E).toNat, by omega⟩
  have hdescribes := describes_accuracyOfFraction (m₁ <<< k / m₂) (Nat.mod_lt (m₁ <<< k) h₂)
  have hroom : E ≤ Format.binary64.targetExponent (totalExponent (m₁ <<< k / m₂) E) := by
    change E ≤ max (((m₁ <<< k / m₂).log2 : Int) + 1 + E - 53) (-1074)
    rcases Int.lt_or_le (-1074) E with hlt | hle
    · have hlog := full_quotient (k := k) h₁ h₂ (by omega)
      omega
    · omega
  have hvalue : ((m₁ <<< k / m₂ : Nat) + (m₁ <<< k % m₂ : Nat) / m₂ : ℚ) * 2 ^ E =
      m₁ * 2 ^ e₁ / (m₂ * 2 ^ e₂) := by
    have hne : (m₂ : ℚ) ≠ 0 := by exact_mod_cast Nat.ne_of_gt h₂
    have hdivmod : (m₂ : ℚ) * (m₁ <<< k / m₂ : Nat) + (m₁ <<< k % m₂ : Nat) = m₁ * 2 ^ k := by
      exact_mod_cast (Nat.div_add_mod _ _).trans (Nat.shiftLeft_eq ..)
    have hexponent : e₁ = k + E + e₂ := by omega
    rw [hexponent, zpow_add₀ (by norm_num), zpow_add₀ (by norm_num), zpow_natCast]
    field_simp
    linear_combination hdivmod
  have hdiv : UnpackedFloat.div .binary64 (.finite s₁ m₁ e₁ h₁) (.finite s₂ m₂ e₂ h₂) =
      roundWithAccuracy .binary64 (s₁ / s₂) (m₁ <<< k / m₂) E
        (accuracyOfFraction (m₁ <<< k % m₂) m₂) := by
    have htarget : min (e₁ - e₂) (Format.binary64.targetExponent
        (totalExponent m₁ e₁ - totalExponent m₂ e₂)) = E := hE.symm
    have hshift : (e₁ - e₂ - E).toNat = k := by omega
    simp only [UnpackedFloat.div, divCore, htarget, hshift]
  rw [hdiv, ← hvalue]
  exact isRounded_roundWithAccuracy hdescribes hroom (s₁ / s₂)

/-- Numbers below half of the least double are rounded to zero. -/
theorem isRounded_zero {q : ℚ} (hq : 0 ≤ q) (htiny : q < 2 ^ (-1075 : ℤ)) (sign : Sign) :
    IsRounded sign q (.zero sign) := by
  obtain ⟨t, ht⟩ : ∃ t, t = q * 2 ^ (1074 : ℤ) := ⟨_, rfl⟩
  have hq' : t * 2 ^ (-1074 : ℤ) = q := by
    rw [ht, mul_assoc, ← zpow_add₀ (by norm_num)]
    simp
  have hsteps : 0 ≤ t := by
    rw [ht]
    positivity
  have hhalf : t < 1 / 2 := by
    have hpos : (0 : ℚ) < 2 ^ (1074 : ℤ) := by positivity
    have hlt := mul_lt_mul_of_pos_right htiny hpos
    rw [← ht, ← zpow_add₀ (by norm_num)] at hlt
    exact hlt.trans_eq (by norm_num)
  have hdist : |t - (0 : Nat)| = t := by
    rw [Nat.cast_zero, sub_zero, abs_of_nonneg hsteps]
  exact ⟨t, -1074, 0, ⟨hsteps, by linarith, le_rfl, Or.inr rfl⟩,
    ⟨hdist.trans_le hhalf.le, fun h => absurd (hdist.symm.trans h) hhalf.ne⟩, hq', rfl⟩

/-- A whole number is rounded, also if its digits are too many. -/
theorem isRounded_mul_one {m : Nat} (hm : 0 < m <<< 53) (hone : 0 < 1) :
    IsRounded .positive m
      (UnpackedFloat.mul .binary64 (.finite .positive (m <<< 53) (-53) hm)
        (.finite .positive 1 0 hone)) := by
  have hne : m ≠ 0 := by
    rintro rfl
    simp at hm
  have hroom : (-53 : Int) ≤
      Format.binary64.targetExponent (totalExponent (m <<< 53) (-53)) := by
    change (-53 : Int) ≤ max (((m <<< 53).log2 : Int) + 1 + -53 - 53) (-1074)
    rw [Nat.shiftLeft_eq, log2_scaled hne]
    omega
  have hvalue : ((m <<< 53 : Nat) : ℚ) * 2 ^ (-53 : ℤ) = m := by
    rw [Nat.shiftLeft_eq, Nat.cast_mul, mul_assoc, Nat.cast_pow, ← zpow_natCast,
      Nat.cast_ofNat, ← zpow_add₀ (by norm_num)]
    norm_num
  have hrounded := isRounded_roundWithAccuracy (describes_exact (m <<< 53)) hroom .positive
  simp only [UnpackedFloat.mul, Nat.mul_one, Int.add_zero]
  rwa [hvalue] at hrounded

/-- A decimal with so many more places than digits is below half of the least double. -/
theorem decimal_lt_of_places {m k : Nat} (hplaces : m.log2 + 1 + 1075 ≤ k) :
    (m : ℚ) / 10 ^ k < 2 ^ (-1075 : ℤ) := by
  have hten : (0 : ℚ) < 10 ^ k := by positivity
  have hdigits : (m : ℚ) < 2 ^ (m.log2 + 1) := by exact_mod_cast Nat.lt_log2_self
  rw [div_lt_iff₀ hten, zpow_neg, inv_mul_eq_div, lt_div_iff₀ (by positivity)]
  calc (m : ℚ) * 2 ^ (1075 : ℤ) < 2 ^ (m.log2 + 1) * 2 ^ (1075 : ℤ) := by gcongr
    _ = 2 ^ (m.log2 + 1 + 1075) := by rw [pow_add _ (m.log2 + 1), ← zpow_natCast 2 1075]; rfl
    _ ≤ 2 ^ k := pow_le_pow_right₀ (by norm_num) hplaces
    _ ≤ 10 ^ k := by gcongr; norm_num

/-- A decimal is rounded. -/
theorem isRounded_ofScientific (m k : Nat) :
    IsRounded .positive (m / 10 ^ k)
      (UnpackedFloat.ofScientific .binary64 m (Int.negOfNat k)) := by
  have hnat : Int.negOfNat k = -(k : Int) := by
    cases k <;> rfl
  rw [UnpackedFloat.ofScientific, hnat]
  split
  · rename_i hm
    rw [hm, Nat.cast_zero, zero_div]
    exact isRounded_zero le_rfl (by positivity) _
  rename_i hm
  have hpos : 0 < m := Nat.pos_of_ne_zero hm
  have hlarge : ¬-(k : Int) > 2 ^ 11 := by omega
  rw [if_neg hlarge]
  split
  · rename_i htiny
    change -(k : Int) < -(2 ^ 11 + m.log2) at htiny
    exact isRounded_zero (by positivity) (decimal_lt_of_places (by omega)) _
  split
  · rename_i hwhole
    obtain rfl : k = 0 := by omega
    rw [pow_zero, div_one]
    exact isRounded_mul_one _ _
  · have hplaces : (-(-(k : Int))).toNat = k := by omega
    have hdiv := isRounded_div 0 0 hpos (Nat.pow_pos (n := k) (by decide : 0 < 10)) .positive
      .positive
    simp only [hplaces]
    rw [zpow_zero, mul_one, mul_one] at hdiv
    exact_mod_cast hdiv

/-! ## The reader of decimals -/

/-- The double is the power of ten, with an exponent that is not below that of one. -/
def isPowerOfTen (k : Nat) : UnpackedFloat → Bool
  | .finite .positive m e _ => -52 ≤ e && m * 2 ^ (e + 52).toNat == 10 ^ k * 2 ^ 52
  | _ => false

/-- The powers of ten that are doubles are listed as they are. -/
theorem isPowerOfTen_table (k : Fin 23) :
    isPowerOfTen k (getElem Float.exactlyRepresentablePowersOfTen k.val k.isLt).toModel.unpack =
      true := by
  revert k
  decide +kernel

/-- A power of ten in digits and an exponent. -/
theorem exists_of_isPowerOfTen {k : Nat} {u : UnpackedFloat} (h : isPowerOfTen k u = true) :
    ∃ m e hm, u = .finite .positive m e hm ∧ (m : ℚ) * 2 ^ e = 10 ^ k := by
  unfold isPowerOfTen at h
  split at h
  · rename_i m e hm
    rw [Bool.and_eq_true, decide_eq_true_eq, beq_iff_eq] at h
    obtain ⟨n, hn⟩ := Int.le.dest h.1
    have hshift : (e + 52).toNat = n := by omega
    have hvalue : (m : ℚ) * 2 ^ n = 10 ^ k * 2 ^ 52 := by
      rw [hshift] at h
      exact_mod_cast h.2
    refine ⟨m, e, hm, rfl, ?_⟩
    rw [← hn, zpow_add₀ (by norm_num), zpow_natCast]
    linear_combination (2 : ℚ) ^ (-52 : ℤ) * hvalue
  · cases h

/-- A whole number of at most 53 digits is a double. -/
theorem unpack_toFloat {m : Nat} (hm : 0 < m) (hlt : m < 2 ^ 53) :
    ∃ k : Nat, m.toUInt64.toFloat.toModel.unpack =
      .finite .positive (m * 2 ^ k) (0 - k) (Nat.mul_pos hm (Nat.two_pow_pos k)) := by
  have hne := Nat.ne_of_gt hm
  have hlog : m.log2 ≤ 52 := Nat.le_of_lt_succ ((Nat.log2_lt hne).2 hlt)
  obtain ⟨k, hk⟩ := Nat.exists_eq_add_of_le hlog
  have hword : m.toUInt64.toNat = m := by
    rw [Nat.toUInt64_eq, UInt64.toNat_ofNat', Nat.mod_eq_of_lt (by omega)]
  have hround : UnpackedFloat.ofUInt64 .binary64 m.toUInt64 =
      UnpackedFloat.round .binary64 .positive m 0 := by
    have hgt : compare (m : Int) 0 = .gt := compare_gt_iff_gt.2 (by omega)
    rw [UnpackedFloat.ofUInt64, hword, UnpackedFloat.ofNat, UnpackedFloat.ofInt,
      UnpackedFloat.normalize, hgt]
    rfl
  have hexact : IsExact .binary64 (m * 2 ^ k) (0 - k) := by
    rw [IsExact, totalExponent_scaled hne]
    change max ((m.log2 : Int) + 1 + 0 - 53) (-1074) = 0 - k
    omega
  have hlog' : (m * 2 ^ k).log2 = 52 := by
    rw [log2_scaled hne, ← hk]
  refine ⟨k, ?_⟩
  change (Float.Model.pack (UnpackedFloat.ofUInt64 .binary64 m.toUInt64)).unpack = _
  rw [hround, round_of_room hm k hexact]
  exact unpack_pack_normal _ hlog' (by omega) (by omega)

/-- The reader of decimals rounds. -/
theorem exists_isRounded (m k : Nat) :
    ∃ result, IsRounded .positive (m / 10 ^ k) result ∧
      Float.ofScientific m true k = Float.ofModel (Float.Model.pack result) := by
  rw [Float.ofScientific]
  split
  · rename_i h
    obtain ⟨hlt, hk⟩ := h
    obtain ⟨m₂, e₂, h₂, hunpack₂, hvalue₂⟩ :=
      exists_of_isPowerOfTen (isPowerOfTen_table ⟨k, Nat.lt_succ_of_le hk⟩)
    refine ⟨UnpackedFloat.div .binary64 m.toUInt64.toFloat.toModel.unpack
      (.finite .positive m₂ e₂ h₂), ?_, by rw [← hunpack₂]; rfl⟩
    rw [← hvalue₂]
    rcases Nat.eq_zero_or_pos m with rfl | hm
    · rw [Nat.cast_zero, zero_div]
      exact isRounded_zero le_rfl (by positivity) .positive
    · obtain ⟨j, hunpack⟩ := unpack_toFloat hm hlt
      have hvalue : ((m * 2 ^ j : Nat) : ℚ) * 2 ^ ((0 : ℤ) - j) = m := by
        rw [zero_sub, zpow_neg, zpow_natCast]
        push_cast
        field_simp
      rw [hunpack, ← hvalue]
      exact isRounded_div _ _ _ _ .positive .positive
  · exact ⟨_, isRounded_ofScientific m k, rfl⟩

end Double

namespace Numeral

open Float.Model UnpackedFloat Double

/-- The number that a numeral spells. -/
def decimal (n : Numeral) : ℚ :=
  let fraction := n.fraction.getD []
  let size : ℚ := digitsValue (n.whole ++ fraction) / 10 ^ fraction.length
  if n.negative then -size else size

/-- The sign that is written. -/
def sign (n : Numeral) : Sign := if n.negative then .negative else .positive

/-- The double is nearest to the decimal and has its sign, even if it is zero or infinite. -/
structure RoundsTo (n : Numeral) (x : Float) : Prop where
  /-- No double is nearer. -/
  nearest : IsNearest n.decimal x
  /-- The sign is kept. -/
  sign : sign? x = some n.sign

/-- There is one double that a numeral rounds to. -/
theorem RoundsTo.unique {n : Numeral} {x y : Float} (hx : n.RoundsTo x) (hy : n.RoundsTo y) :
    x = y :=
  hx.nearest.unique hy.nearest (hx.sign.trans hy.sign.symm)

/-- A numeral is read as the double that it rounds to. -/
theorem roundsTo_toFloat (n : Numeral) : n.RoundsTo n.toFloat := by
  obtain ⟨result, hrounded, hread⟩ := exists_isRounded
    (digitsValue (n.whole ++ n.fraction.getD [])) (n.fraction.getD []).length
  change n.magnitude = _ at hread
  have hsize := hrounded.isNearest
  have hsign := hrounded.sign?
  rw [← hread] at hsize hsign
  rw [toFloat]
  cases hn : n.negative with
  | true =>
    refine ⟨?_, ?_⟩
    · rw [decimal, hn]
      exact hsize.neg
    · rw [if_pos rfl, sign?_neg, hsign, Numeral.sign, hn]
      rfl
  | false =>
    refine ⟨?_, ?_⟩
    · rw [decimal, hn]
      exact hsize
    · rw [if_neg Bool.false_ne_true, hsign, Numeral.sign, hn]
      rfl

end Numeral

end PageText.Number
