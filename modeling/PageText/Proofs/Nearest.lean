import PageText.Proofs.Double

/-!
# Rounding gives the nearest double

A positive number is so many steps of a grid, which is as fine as 53 digits allow but not finer
than the finest. The nearest place of the grid is the nearest double: other doubles are on the
grid too or lie below all of the places that have full digits. The digits that rounding cuts off
are kept as two bits, which say on which side of a half the number is, however many digits there
were and whatever was missing behind them.
-/

namespace PageText.Number.Double

open Float.Model UnpackedFloat Binary32

/-! ## Whole numbers -/

/-- The whole number is nearest to `t`, and it is even if there are two. -/
structure IsRounding (t : ℚ) (r : Nat) : Prop where
  /-- It is at most half a step away. -/
  near : |t - r| ≤ 1 / 2
  /-- Half a step away from two numbers the even one is meant. -/
  even : |t - r| = 1 / 2 → Even r

namespace IsRounding

variable {t : ℚ} {r : Nat}

/-- Every other whole number is farther away, or as far but odd where the nearest is even. -/
theorem nearer (h : IsRounding t r) {k : Nat} (hk : k ≠ r) :
    |t - r| < |t - k| ∨ (|t - r| = |t - k| ∧ Even r ∧ ¬Even k) := by
  have hnear := h.near
  have hapart : (1 : ℚ) ≤ |(r : ℚ) - k| := by
    have hne : (r : ℤ) - k ≠ 0 := by omega
    exact_mod_cast Int.one_le_abs hne
  have htriangle : |(r : ℚ) - k| ≤ |t - r| + |t - k| := by
    rw [abs_sub_comm t r]
    exact abs_sub_le _ _ _
  rcases lt_or_ge |t - r| |t - k| with hlt | hge
  · exact Or.inl hlt
  -- Both distances are one half, so the two numbers are neighbours.
  have hhalf : |t - r| = 1 / 2 := by linarith
  have hother : |t - k| = 1 / 2 := by linarith
  have hone : |(r : ℚ) - k| = 1 := by linarith
  have heven := h.even hhalf
  refine Or.inr ⟨hhalf.trans hother.symm, heven, fun hk' => ?_⟩
  have hint : |(r : ℤ) - k| = 1 := by exact_mod_cast hone
  obtain ⟨a, rfl⟩ := heven
  obtain ⟨b, rfl⟩ := hk'
  rcases (abs_eq Int.one_nonneg).1 hint with hone | hone <;> omega

/-- No whole number is nearer. -/
theorem le_abs (h : IsRounding t r) (k : Nat) : |t - r| ≤ |t - k| := by
  by_cases hk : k = r
  · rw [hk]
  · rcases h.nearer hk with hlt | ⟨heq, -⟩
    · exact hlt.le
    · exact heq.le

/-- Rounding does not go beyond a whole number above. -/
theorem le_of_le (h : IsRounding t r) {n : Nat} (ht : t ≤ n) : r ≤ n := by
  by_contra hlt
  have hr : (n : ℚ) + 1 ≤ r := by exact_mod_cast Nat.lt_of_not_le hlt
  have hnear := (abs_le.1 h.near).1
  linarith

/-- Rounding does not go beyond a whole number below. -/
theorem ge_of_ge (h : IsRounding t r) {n : Nat} (ht : (n : ℚ) ≤ t) : n ≤ r := by
  by_contra hlt
  have hr : (r : ℚ) + 1 ≤ n := by exact_mod_cast Nat.lt_of_not_le hlt
  have hnear := (abs_le.1 h.near).2
  linarith

end IsRounding

/-! ## Doubles on a grid -/

/-- A double lies on a grid that is not finer than the finest, where an odd place has odd
digits, or it lies below the place with the least full mantissa. -/
theorem IsDouble.grid {m : Nat} {e E : Int} (h : IsDouble m e) :
    (∃ k : Nat, (m : ℚ) * 2 ^ e = k * 2 ^ E ∧ (Even m → Even k)) ∨
      ((m : ℚ) * 2 ^ e < 2 ^ 52 * 2 ^ E ∧ -1074 < E) := by
  rcases Int.lt_or_le e E with hlt | hle
  · have hdigits : (m : ℚ) < 2 ^ 53 := by exact_mod_cast h.lt
    have hstep : (2 : ℚ) ^ e ≤ 2 ^ (E - 1) := zpow_le_zpow_right₀ (by norm_num) (by omega)
    have hhalf : (2 : ℚ) ^ E = 2 * 2 ^ (E - 1) := by
      rw [← zpow_one_add₀ (by norm_num)]
      congr 1
      omega
    refine Or.inr ⟨?_, by have := h.le; omega⟩
    calc (m : ℚ) * 2 ^ e < 2 ^ 53 * 2 ^ e := by gcongr
      _ ≤ 2 ^ 53 * 2 ^ (E - 1) := by gcongr
      _ = 2 ^ 52 * 2 ^ E := by rw [hhalf]; ring
  · obtain ⟨n, rfl⟩ := Int.le.dest hle
    refine Or.inl ⟨m * 2 ^ n, ?_, fun hm => hm.mul_right _⟩
    rw [zpow_add₀ (by norm_num), zpow_natCast]
    push_cast
    ring

/-- Digits and an exponent, after a carry into a 54th digit. -/
def carried (r : Nat) (E : Int) : Nat × Int := if r = 2 ^ 53 then (2 ^ 52, E + 1) else (r, E)

/-- The double that rounding to a place of a grid makes. -/
def rounded (sign : Sign) (r : Nat) (E : Int) : Float :=
  Float.ofModel (Float.Model.pack (finiteOrZero sign (carried r E).1 (carried r E).2))

/-- A number of steps of a grid: less than there are with 53 digits, and not few of them unless
the grid is the finest. -/
structure OnGrid (t : ℚ) (E : Int) : Prop where
  /-- There are no negative numbers on the grid. -/
  nonneg : 0 ≤ t
  /-- The steps have at most 53 digits. -/
  lt : t < 2 ^ 53
  /-- The grid is not finer than the finest. -/
  le : -1074 ≤ E
  /-- The grid is fine enough. -/
  full : 2 ^ 52 ≤ t ∨ E = -1074

section

variable {t : ℚ} {r : Nat} {E : Int}

/-- The digits of what is rounded are those of a double. -/
theorem OnGrid.isDouble (h : OnGrid t E) (hr : IsRounding t r) :
    IsDouble (carried r E).1 (carried r E).2 := by
  have hlt := h.lt.le
  have hmost : r ≤ 2 ^ 53 := hr.le_of_le (by exact_mod_cast hlt)
  have hle := h.le
  rw [carried]
  split
  · exact ⟨by norm_num, by omega, Or.inl le_rfl⟩
  · refine ⟨lt_of_le_of_ne hmost ‹_›, h.le, h.full.imp_left fun hfull => ?_⟩
    exact hr.ge_of_ge (by exact_mod_cast hfull)

/-- A carry keeps the number. -/
theorem carried_value (r : Nat) (E : Int) :
    ((carried r E).1 : ℚ) * 2 ^ (carried r E).2 = r * 2 ^ E := by
  rw [carried]
  split
  · rename_i hr
    rw [hr, zpow_add_one₀ (by norm_num)]
    push_cast
    ring
  · rfl

/-- A carry keeps an even last digit. -/
theorem even_carried (hr : Even r) : Even (carried r E).1 := by
  rw [carried]
  split
  · exact (even_two.pow_of_ne_zero (by norm_num))
  · exact hr

/-- The overflow in halves of the greatest step. -/
theorem lt_overflow_iff (t : ℚ) (E : Int) :
    t * 2 ^ E < overflow ↔ t * 2 ^ (E - 970) < 2 ^ 54 - 1 := by
  have hhigh : overflow = (2 ^ 54 - 1) * 2 ^ 970 := by
    rw [overflow, sub_mul, ← pow_add, one_mul]
  have hsteps : t * 2 ^ E = t * 2 ^ (E - 970) * 2 ^ 970 := by
    rw [mul_assoc, ← zpow_natCast, ← zpow_add₀ (by norm_num)]
    congr 2
    exact (Int.sub_add_cancel E 970).symm
  have hpos : (0 : ℚ) < 2 ^ 970 := by positivity
  rw [hhigh, hsteps]
  generalize (2 : ℚ) ^ 970 = step at hpos
  exact mul_lt_mul_iff_left₀ hpos

/-- What is rounded has an exponent of doubles exactly if it is below the overflow. -/
theorem OnGrid.lt_overflow_iff (h : OnGrid t E) (hr : IsRounding t r) :
    t * 2 ^ E < overflow ↔ (carried r E).2 ≤ 971 := by
  obtain ⟨hlow, hhigh⟩ := abs_le.1 hr.near
  have hlt := h.lt
  rw [Double.lt_overflow_iff, carried]
  rcases Int.lt_trichotomy E 971 with hE | rfl | hE
  · have hfine : (2 : ℚ) ^ (E - 970) ≤ 1 := zpow_le_one_of_nonpos₀ (by norm_num) (by omega)
    have hsmall : t * 2 ^ (E - 970) ≤ t := mul_le_of_le_one_right h.nonneg hfine
    refine iff_of_true (by linarith) ?_
    split <;> simp only <;> omega
  · -- At the greatest exponent the carry is what makes an infinity.
    have htwice : t * 2 ^ ((971 : ℤ) - 970) = 2 * t := by norm_num [mul_comm]
    rw [htwice]
    split
    · rename_i hcarry
      rw [hcarry] at hlow
      push_cast at hlow
      exact iff_of_false (by linarith) (by simp)
    · rename_i hcarry
      refine iff_of_true ?_ le_rfl
      have hmost : r + 1 ≤ 2 ^ 53 :=
        Nat.lt_of_le_of_ne (hr.le_of_le (by exact_mod_cast hlt.le)) hcarry
      rcases lt_or_eq_of_le hhigh with hnear | htie
      · have hmost' : (r : ℚ) + 1 ≤ 2 ^ 53 := by exact_mod_cast hmost
        linarith
      · obtain ⟨k, rfl⟩ := hr.even (by rw [htie]; norm_num)
        have hmost' : ((k + k + 2 : Nat) : ℚ) ≤ (2 ^ 53 : Nat) := by
          exact_mod_cast (show k + k + 2 ≤ 2 ^ 53 by omega)
        push_cast at hmost' htie
        linarith
  · have hcoarse : (2 : ℚ) ^ (2 : ℤ) ≤ 2 ^ (E - 970) := zpow_le_zpow_right₀ (by norm_num) (by omega)
    have hfull : (2 : ℚ) ^ 52 ≤ t := h.full.resolve_right (by omega)
    have hlarge : (2 : ℚ) ^ 52 * 2 ^ (2 : ℤ) ≤ t * 2 ^ (E - 970) := by gcongr
    refine iff_of_false (by linarith) ?_
    split <;> simp only <;> omega

/-- A double is on the grid, where an odd place has odd digits, or below a place that is not above
the number. -/
theorem OnGrid.place (h : OnGrid t E) {parts : Parts}
    (hp : IsDouble parts.digits parts.exponent) :
    (∃ k : Nat, parts.value = k * 2 ^ E ∧ (Even parts.digits → Even k)) ∨
      ∃ k : Nat, parts.value < k * 2 ^ E ∧ (k : ℚ) ≤ t := by
  obtain ⟨sign, m, e⟩ := parts
  cases sign with
  | positive =>
    rcases hp.grid (E := E) with hplace | ⟨hbelow, hE⟩
    · exact Or.inl hplace
    · have hfull : (2 : ℚ) ^ 52 ≤ t := h.full.resolve_right (by omega)
      exact Or.inr ⟨2 ^ 52, by push_cast; exact hbelow, by push_cast; exact hfull⟩
  | negative =>
    rcases Nat.eq_zero_or_pos m with rfl | hm
    · exact Or.inl ⟨0, by simp [Parts.value], fun _ => ⟨0, rfl⟩⟩
    · have hvalue : 0 < (m : ℚ) * 2 ^ e := by positivity
      exact Or.inr ⟨0, by simpa [Parts.value] using hvalue, by exact_mod_cast h.nonneg⟩

/-- The parts of what is rounded. -/
theorem OnGrid.parts?_rounded (h : OnGrid t E) (hr : IsRounding t r) (sign : Sign)
    (he : (carried r E).2 ≤ 971) :
    parts? (rounded sign r E) = some ⟨sign, (carried r E).1, (carried r E).2⟩ :=
  parts?_eq_some_iff.2 ⟨h.isDouble hr, he, unpack_pack (h.isDouble hr) he⟩

/-- What is too large has digits. -/
theorem OnGrid.digits_pos (h : OnGrid t E) (hr : IsRounding t r) (he : 971 < (carried r E).2) :
    0 < (carried r E).1 :=
  lt_of_lt_of_le (by norm_num) ((h.isDouble hr).full.resolve_right (by omega))

/-- Rounding gives the nearest double. -/
theorem OnGrid.isNearest (h : OnGrid t E) (hr : IsRounding t r) :
    IsNearest (t * 2 ^ E) (rounded .positive r E) := by
  have hstep : (0 : ℚ) < 2 ^ E := by positivity
  have hq : 0 ≤ t * 2 ^ E := mul_nonneg h.nonneg hstep.le
  rw [IsNearest, abs_of_nonneg hq]
  split
  · rename_i hlt
    refine ⟨_, h.parts?_rounded hr .positive ((h.lt_overflow_iff hr).1 hlt), ?_⟩
    intro y other hy hne
    have hvalue : Parts.value ⟨.positive, (carried r E).1, (carried r E).2⟩ = r * 2 ^ E :=
      carried_value r E
    have hdist (k : ℚ) : |t * 2 ^ E - k * 2 ^ E| = |t - k| * 2 ^ E := by
      rw [← sub_mul, abs_mul, abs_of_pos hstep]
    rw [hvalue] at hne ⊢
    rw [hdist]
    rcases h.place (parts?_eq_some_iff.1 hy).1 with ⟨k, hk, heven⟩ | ⟨k, hk, hkt⟩
    · rw [hk, hdist]
      have hne : k ≠ r := by
        rintro rfl
        exact hne hk
      rcases hr.nearer hne with hnearer | ⟨htie, hr', hk'⟩
      · exact Or.inl (mul_lt_mul_of_pos_right hnearer hstep)
      · exact Or.inr ⟨by rw [htie], even_carried hr', fun hdigits => hk' (heven hdigits)⟩
    · -- The other double is farther away than a place between it and the number.
      have hplace : |t - r| * 2 ^ E ≤ (t - k) * 2 ^ E := by
        have hle := hr.le_abs k
        rw [abs_of_nonneg (sub_nonneg.2 hkt)] at hle
        exact mul_le_mul_of_nonneg_right hle hstep.le
      refine Or.inl (hplace.trans_lt ((lt_of_lt_of_le ?_ (le_abs_self _))))
      rw [sub_mul]
      linarith
  · rename_i hge
    have hE : 971 < (carried r E).2 := not_le.1 (mt (h.lt_overflow_iff hr).2 hge)
    have hunpack : (rounded .positive r E).toModel.unpack = .infinity .positive :=
      unpack_pack_overflow (h.digits_pos hr hE) hE
    rw [Float.isInf, Float.Model.isInf, hunpack]
    rfl

end

/-! ## Digits that were cut off -/

/-- A mantissa with its two bits stands for a number: the round bit says whether one half is
missing, and the sticky bit whether anything less is. -/
def Describes (em : ExtendedMantissa) (t : ℚ) : Prop :=
  ∃ left : ℚ, 0 ≤ left ∧ left < 1 / 2 ∧ (em.stickyBit = true ↔ 0 < left) ∧
    t = em.mantissa + (if em.roundBit then 1 / 2 else 0) + left

namespace Describes

variable {em : ExtendedMantissa} {t : ℚ}

/-- The mantissa is the whole part. -/
theorem bounds (h : Describes em t) : (em.mantissa : ℚ) ≤ t ∧ t < em.mantissa + 1 := by
  obtain ⟨left, hnonneg, hlt, -, rfl⟩ := h
  constructor <;> split <;> linarith

/-- Cutting off a digit halves the number. -/
theorem shiftRightOne (h : Describes em t) : Describes em.shiftRightOne (t / 2) := by
  obtain ⟨left, hnonneg, hlt, hsticky, rfl⟩ := h
  obtain ⟨m, roundBit, stickyBit⟩ := em
  have hm : (m : ℚ) = 2 * (m / 2 : Nat) + (m % 2 : Nat) := by
    exact_mod_cast (Nat.div_add_mod m 2).symm
  refine ⟨(if roundBit then 1 / 4 else 0) + left / 2, ?_, ?_, ?_, ?_⟩
  · split <;> linarith
  · split <;> linarith
  · cases roundBit
    · simpa [ExtendedMantissa.shiftRightOne] using hsticky
    · simp only [ExtendedMantissa.shiftRightOne, Bool.true_or, true_iff, if_true]
      linarith
  · rw [hm]
    rcases Nat.mod_two_eq_zero_or_one m with hbit | hbit <;>
      cases roundBit <;> simp [ExtendedMantissa.shiftRightOne, hbit] <;> ring

/-- Cutting off digits divides by a power of two. -/
theorem shiftRight (h : Describes em t) (k : Nat) : Describes (em >>> k) (t / 2 ^ k) := by
  induction k with
  | zero =>
    rw [pow_zero, div_one]
    exact h
  | succ k ih =>
    have hlast : em >>> (k + 1) = (em >>> k).shiftRightOne := rfl
    rw [hlast, pow_succ, ← div_div]
    exact ih.shiftRightOne

/-- The mantissa is rounded to the nearest whole number. -/
theorem isRounding (h : Describes em t) : IsRounding t em.roundedMantissa := by
  obtain ⟨left, hnonneg, hlt, hsticky, rfl⟩ := h
  obtain ⟨m, roundBit, stickyBit⟩ := em
  have hround : ExtendedMantissa.roundedMantissa ⟨m, roundBit, stickyBit⟩ =
      if roundBit then (if stickyBit then m + 1 else m + m % 2) else m := by
    cases roundBit <;> cases stickyBit <;> rfl
  rw [hround]
  simp only at hsticky ⊢
  cases roundBit with
  | false =>
    have hdist : |(m : ℚ) + left - m| = left := by
      rw [add_sub_cancel_left, abs_of_nonneg hnonneg]
    simp only [Bool.false_eq_true, if_false, add_zero]
    exact ⟨hdist.trans_le hlt.le, fun h => absurd (hdist.symm.trans h) hlt.ne⟩
  | true =>
    simp only [if_true]
    cases stickyBit with
    | true =>
      have hpos : 0 < left := hsticky.1 rfl
      have hdist : |(m : ℚ) + 1 / 2 + left - (m + 1 : Nat)| = 1 / 2 - left := by
        rw [abs_of_nonpos] <;> push_cast <;> linarith
      simp only [if_true]
      exact ⟨by linarith, fun h => by linarith⟩
    | false =>
      have hzero : left = 0 := by
        by_contra hne
        exact absurd (hsticky.2 (lt_of_le_of_ne hnonneg (Ne.symm hne))) Bool.false_ne_true
      have heven : Even (m + m % 2) := by
        rw [Nat.even_iff]
        omega
      simp only [Bool.false_eq_true, if_false]
      refine ⟨?_, fun _ => heven⟩
      rcases Nat.mod_two_eq_zero_or_one m with hbit | hbit <;>
        simp only [hzero, hbit] <;> norm_num

end Describes

/-- The remainder of a division tells what is missing in the quotient. -/
theorem describes_accuracyOfFraction (m : Nat) {num den : Nat} (h : num < den) :
    Describes (.ofMantissaAndAccuracy m (accuracyOfFraction num den)) (m + num / den) := by
  have hden : (0 : ℚ) < den := by exact_mod_cast Nat.zero_lt_of_lt h
  rw [accuracyOfFraction]
  split
  · rename_i hnum
    exact ⟨0, le_rfl, by norm_num, by simp [ExtendedMantissa.ofMantissaAndAccuracy],
      by simp [ExtendedMantissa.ofMantissaAndAccuracy, hnum]⟩
  · rename_i hnum
    have hpos : (0 : ℚ) < num := by exact_mod_cast Nat.pos_of_ne_zero hnum
    rcases lt_trichotomy (2 * num) den with hlt | heq | hgt
    · have hless : (num : ℚ) / den < 1 / 2 := by
        rw [div_lt_div_iff₀ hden (by norm_num)]
        exact_mod_cast (by omega : num * 2 < 1 * den)
      rw [Nat.compare_eq_lt.2 hlt]
      exact ⟨num / den, (div_pos hpos hden).le, hless, iff_of_true rfl (div_pos hpos hden), by
        simp [ExtendedMantissa.ofMantissaAndAccuracy]⟩
    · have hhalf : (num : ℚ) / den = 1 / 2 := by
        rw [div_eq_div_iff hden.ne' (by norm_num)]
        exact_mod_cast (by omega : num * 2 = 1 * den)
      rw [Nat.compare_eq_eq.2 heq, hhalf]
      exact ⟨0, le_rfl, by norm_num, by simp [ExtendedMantissa.ofMantissaAndAccuracy], by
        simp [ExtendedMantissa.ofMantissaAndAccuracy]⟩
    · have hmore : (1 : ℚ) / 2 < num / den := by
        rw [div_lt_div_iff₀ (by norm_num) hden]
        exact_mod_cast (by omega : 1 * den < num * 2)
      have hone : (num : ℚ) / den < 1 := (div_lt_one hden).2 (by exact_mod_cast h)
      rw [Nat.compare_eq_gt.2 hgt]
      exact ⟨num / den - 1 / 2, by linarith, by linarith, by
        simpa [ExtendedMantissa.ofMantissaAndAccuracy] using hmore, by
        simp [ExtendedMantissa.ofMantissaAndAccuracy]⟩

/-- A mantissa from which nothing was cut off. -/
theorem describes_exact (m : Nat) : Describes (.ofMantissaAndAccuracy m .exact) m := by
  have h := describes_accuracyOfFraction m Nat.one_pos
  rwa [Nat.cast_zero, zero_div, add_zero] at h

/-! ## Rounding -/

/-- What rounding a positive number gives: the digits of a nearest place of its grid. -/
def IsRounded (sign : Sign) (q : ℚ) (result : UnpackedFloat) : Prop :=
  ∃ t E r, OnGrid t E ∧ IsRounding t r ∧ t * 2 ^ E = q ∧
    result = finiteOrZero sign (carried r E).1 (carried r E).2

/-- What is rounded is nearest. -/
theorem IsRounded.isNearest {q : ℚ} {result : UnpackedFloat} (h : IsRounded .positive q result) :
    IsNearest q (Float.ofModel (Float.Model.pack result)) := by
  obtain ⟨t, E, r, hgrid, hr, rfl, rfl⟩ := h
  exact hgrid.isNearest hr

/-- What is rounded has the sign that it was rounded with, even if it is zero or infinite. -/
theorem IsRounded.sign? {sign : Sign} {q : ℚ} {result : UnpackedFloat}
    (h : IsRounded sign q result) :
    sign? (Float.ofModel (Float.Model.pack result)) = some sign := by
  obtain ⟨t, E, r, hgrid, hr, -, rfl⟩ := h
  rcases le_or_gt (carried r E).2 971 with he | he
  · exact sign?_of_parts? (hgrid.parts?_rounded hr sign he)
  · have hunpack : (rounded sign r E).toModel.unpack = .infinity sign :=
      unpack_pack_overflow (hgrid.digits_pos hr he) he
    change Double.sign? (rounded sign r E) = some sign
    rw [Double.sign?, hunpack]

/-- Digits beyond the format are not shifted out a second time, unless a carry made one more. -/
theorem shiftToTargetExponent_exact {r : Nat} {E : Int} (hr : r ≤ 2 ^ 53) (hE : -1074 ≤ E) :
    shiftToTargetExponent .binary64 r E .exact =
      (⟨(carried r E).1, false, false⟩, (carried r E).2) := by
  have htarget : Format.binary64.targetExponent (totalExponent r E) =
      max (r.log2 + 1 + E - 53) (-1074) := rfl
  rw [shiftToTargetExponent, htarget, shiftToExponent, carried]
  split
  · rename_i hcarry
    subst hcarry
    have hshift : (max (((2 ^ 53 : Nat).log2 : Int) + 1 + E - 53) (-1074) - E).toNat = 1 := by
      rw [Nat.log2_two_pow]
      omega
    have hhalf : (ExtendedMantissa.ofMantissaAndAccuracy (2 ^ 53) .exact) >>> 1 =
        ⟨2 ^ 52, false, false⟩ := by
      have h := shiftRight_scaled (2 ^ 52) 1
      rwa [← Nat.pow_add] at h
    rw [hshift, hhalf]
    rfl
  · rename_i hcarry
    have hlog : r.log2 ≤ 52 := by
      rcases Nat.eq_zero_or_pos r with rfl | hpos
      · simp
      · have := (Nat.log2_lt (Nat.ne_of_gt hpos)).2 (Nat.lt_of_le_of_ne hr hcarry)
        omega
    have hshift : (max ((r.log2 : Int) + 1 + E - 53) (-1074) - E).toNat = 0 := by omega
    rw [hshift]
    exact Prod.ext rfl (Int.add_zero E)

/-- Rounding a mantissa with enough digits, of which some may have been cut off before. -/
theorem isRounded_roundWithAccuracy {m : Nat} {e : Int} {accuracy : Accuracy} {t : ℚ}
    (ht : Describes (.ofMantissaAndAccuracy m accuracy) t)
    (he : e ≤ Format.binary64.targetExponent (totalExponent m e)) (sign : Sign) :
    IsRounded sign (t * 2 ^ e) (roundWithAccuracy .binary64 sign m e accuracy) := by
  obtain ⟨E, hE⟩ : ∃ E, E = Format.binary64.targetExponent (totalExponent m e) := ⟨_, rfl⟩
  obtain ⟨k, hk⟩ := Int.le.dest (hE ▸ he)
  have htarget : E = max (m.log2 + 1 + e - 53) (-1074) := hE
  obtain ⟨hlow, hhigh⟩ := ht.bounds
  have hmantissa : (ExtendedMantissa.ofMantissaAndAccuracy m accuracy).mantissa = m := by
    cases accuracy with
    | exact => rfl
    | inexact order => cases order <;> rfl
  rw [hmantissa] at hlow hhigh
  have hshifted := ht.shiftRight k
  have hrounding := hshifted.isRounding
  have hgrid : OnGrid (t / 2 ^ k) E := by
    have hpow : (0 : ℚ) < 2 ^ k := by positivity
    refine ⟨div_nonneg ((Nat.cast_nonneg m).trans hlow) hpow.le, ?_, by omega, ?_⟩
    · have hmost : m + 1 ≤ 2 ^ (53 + k) :=
        Nat.lt_log2_self.trans_le (Nat.pow_le_pow_right (by decide) (by omega))
      rw [div_lt_iff₀ hpow, ← pow_add]
      exact hhigh.trans_le (by exact_mod_cast hmost)
    · refine (eq_or_ne E (-1074)).symm.imp_left fun hfull => ?_
      have hlog : m.log2 = 52 + k := by omega
      have hm : m ≠ 0 := by
        rintro rfl
        rw [Nat.log2_zero] at hlog
        omega
      have hleast : 2 ^ (52 + k) ≤ m := hlog ▸ Nat.log2_self_le hm
      rw [le_div_iff₀ hpow, ← pow_add]
      exact le_trans (by exact_mod_cast hleast) hlow
  refine ⟨t / 2 ^ k, E, _, hgrid, hrounding, ?_, ?_⟩
  · rw [← hk, zpow_add₀ (by norm_num), zpow_natCast]
    field_simp
  · have hfirst : shiftToTargetExponent .binary64 m e accuracy =
        (ExtendedMantissa.ofMantissaAndAccuracy m accuracy >>> k, E) := by
      have hshift : (E - e).toNat = k := by omega
      rw [shiftToTargetExponent, ← hE, shiftToExponent, hshift, hk]
    have hmost := hrounding.le_of_le (n := 2 ^ 53) (by exact_mod_cast hgrid.lt.le)
    simp only [roundWithAccuracy, hfirst, shiftToTargetExponent_exact hmost hgrid.le]
    rfl

end PageText.Number.Double
