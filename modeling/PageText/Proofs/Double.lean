import PageText.Proofs.Binary32

/-!
# Doubles as rational numbers

A finite double is a sign, at most 53 binary digits and an exponent of two; what the digits and
the exponent may be determines both of them from the number. Of the numbers that are not too
large one double is the nearest to a rational number, where of two that are equally near the one
whose last digit is zero counts as nearer.
-/

namespace PageText.Number.Double

open Float.Model UnpackedFloat Binary32

/-! ## Digits and exponents -/

/-- The digits and exponents of doubles: a full mantissa, or fewer digits at the least
exponent. Zero has no digits. -/
structure IsDouble (m : Nat) (e : Int) : Prop where
  /-- There are at most 53 digits. -/
  lt : m < 2 ^ 53
  /-- The exponent is not below the least one. -/
  le : -1074 ≤ e
  /-- There are 53 digits unless the exponent is the least. -/
  full : 2 ^ 52 ≤ m ∨ e = -1074

/-- Digits and an exponent that a number has by its kind. -/
def finiteOrZero (sign : Sign) (m : Nat) (e : Int) : UnpackedFloat :=
  if hm : m = 0 then .zero sign else .finite sign m e (Nat.pos_of_ne_zero hm)

/-- A number with digits is finite. -/
theorem finiteOrZero_of_pos {sign : Sign} {m : Nat} {e : Int} (hm : 0 < m) :
    finiteOrZero sign m e = .finite sign m e hm :=
  dif_neg (Nat.ne_of_gt hm)

/-- A double with few digits at the least exponent is read back. -/
theorem unpack_pack_subnormal {sign : Sign} {m : Nat} (hm : 0 < m) (hl : m < 2 ^ 52) :
    UnpackedFloat.unpack .binary64 (UnpackedFloat.pack .binary64 (.finite sign m (-1074) hm)) =
      .finite sign m (-1074) hm := by
  have hlog : m.log2 < 52 := (Nat.log2_lt (Nat.ne_of_gt hm)).2 hl
  have hpack : UnpackedFloat.pack .binary64 (.finite sign m (-1074) hm) =
      packComponents .binary64 sign 0#11 (BitVec.ofNat 52 m) := by
    have hsize : ¬2 ^ 11 ≤ 1 + 1 := by decide
    have hfull : m.log2 + 1 ≠ 53 := by omega
    simp only [UnpackedFloat.pack]
    exact (if_neg hsize).trans (if_neg hfull)
  have hword : (BitVec.ofNat 52 m).toNat = m := Nat.mod_eq_of_lt hl
  have hones : (0#11 : BitVec 11) ≠ -1#11 := by decide
  have hdigits : BitVec.ofNat 52 m ≠ 0#52 := by
    intro hz
    have ht : m = 0 := hword.symm.trans (congrArg BitVec.toNat hz)
    omega
  rw [hpack]
  simp only [UnpackedFloat.unpack, unpackSign_packComponents, Sign.ofBitVec_toBitVec,
    unpackExponent_packComponents, unpackMantissa_packComponents]
  rw [if_neg hones, if_pos trivial, dif_neg hdigits]
  simp only [hword]
  rfl

/-- A double is read back from its digits and its exponent. -/
theorem unpack_pack {sign : Sign} {m : Nat} {e : Int} (h : IsDouble m e) (he : e ≤ 971) :
    (Float.Model.pack (finiteOrZero sign m e)).unpack = finiteOrZero sign m e := by
  rw [finiteOrZero]
  split
  · cases sign <;> rfl
  · rename_i hm
    rcases Nat.lt_or_ge m (2 ^ 52) with hl | hl
    · have hleast : e = -1074 := h.full.resolve_left (Nat.not_le_of_gt hl)
      subst hleast
      exact unpack_pack_subnormal (Nat.pos_of_ne_zero hm) hl
    · exact unpack_pack_normal _ ((Nat.log2_eq_iff hm).2 ⟨hl, h.lt⟩) h.le he

/-- Digits with an exponent that is too large make an infinity. -/
theorem unpack_pack_overflow {sign : Sign} {m : Nat} {e : Int} (hm : 0 < m) (he : 972 ≤ e) :
    (Float.Model.pack (finiteOrZero sign m e)).unpack = .infinity sign := by
  have hsize : 2 ^ 11 ≤ (e + 1023 + 52).toNat + 1 := by omega
  have hpack : UnpackedFloat.pack .binary64 (.finite sign m e hm) =
      UnpackedFloat.pack .binary64 (.infinity sign) := by
    simp only [UnpackedFloat.pack]
    exact if_pos hsize
  rw [finiteOrZero_of_pos hm]
  simp only [Float.Model.pack, Float.Model.unpack, hpack]
  cases sign <;> rfl

/-- A finite double that is decoded has digits and an exponent of doubles. -/
theorem isDouble_of_unpack {bits : BitVec Format.binary64.numBits} {sign : Sign} {m : Nat}
    {e : Int} {hm : 0 < m} (h : UnpackedFloat.unpack .binary64 bits = .finite sign m e hm) :
    IsDouble m e ∧ e ≤ 971 := by
  obtain ⟨stored, hlt, hdigits⟩ := digits_of_unpack h
  change stored + 1 < 2 ^ 11 at hlt
  change (m.log2 = 52 ∧ 0 < stored ∧ e = stored - (1023 + 52)) ∨
    (m.log2 < 52 ∧ e = 1 - (1023 + 52)) at hdigits
  have hne := Nat.ne_of_gt hm
  rcases hdigits with ⟨hlog, hpos, he⟩ | ⟨hlog, he⟩
  · obtain ⟨hlow, hhigh⟩ := (Nat.log2_eq_iff hne).1 hlog
    exact ⟨⟨hhigh, by omega, Or.inl hlow⟩, by omega⟩
  · have hsmall := (Nat.log2_lt hne).1 hlog
    exact ⟨⟨by omega, by omega, Or.inr (by omega)⟩, by omega⟩

/-- A double is determined by what it is decoded to. -/
theorem eq_of_unpack {x y : Float} (h : x.toModel.unpack = y.toModel.unpack) : x = y := by
  have hself (x : Float) : Float.ofModel (Float.Model.pack x.toModel.unpack) = x := by
    obtain ⟨bits, hv⟩ := x
    have hbits := pack_unpack_of_valid hv
    simp only [Float.Model.pack, Float.Model.unpack, hbits, UInt64.ofBitVec_toBitVec]
  rw [← hself x, h, hself y]

/-! ## Values -/

/-- The sign, the digits and the exponent of a finite double. -/
structure Parts where
  /-- The sign; zeros have one too. -/
  sign : Sign
  /-- The digits, as a whole number. -/
  digits : Nat
  /-- The exponent of two. -/
  exponent : Int

/-- The rational number that the parts denote. -/
def Parts.value (parts : Parts) : ℚ :=
  match parts.sign with
  | .positive => parts.digits * 2 ^ parts.exponent
  | .negative => -(parts.digits * 2 ^ parts.exponent)

/-- The parts of a double that is neither infinite nor no number. -/
def parts? (x : Float) : Option Parts :=
  match x.toModel.unpack with
  | .finite sign m e _ => some ⟨sign, m, e⟩
  | .zero sign => some ⟨sign, 0, -1074⟩
  | .infinity _ => none
  | .notANumber => none

/-- The sign of a double, unless it is no number. -/
def sign? (x : Float) : Option Sign :=
  match x.toModel.unpack with
  | .finite sign _ _ _ => some sign
  | .zero sign => some sign
  | .infinity sign => some sign
  | .notANumber => none

/-- A double that has a sign is a number. -/
theorem isNaN_of_sign? {x : Float} {sign : Sign} (h : sign? x = some sign) :
    x.isNaN = false := by
  change UnpackedFloat.isNaN x.toModel.unpack = false
  rw [sign?] at h
  cases hunpack : x.toModel.unpack with
  | notANumber =>
    rw [hunpack] at h
    cases h
  | _ => rfl

/-- A double has the parts that it is decoded to. -/
theorem parts?_eq_some_iff {x : Float} {parts : Parts} :
    parts? x = some parts ↔ IsDouble parts.digits parts.exponent ∧ parts.exponent ≤ 971 ∧
      x.toModel.unpack = finiteOrZero parts.sign parts.digits parts.exponent := by
  obtain ⟨sign, m, e⟩ := parts
  constructor
  · intro h
    rw [parts?] at h
    split at h
    · rename_i hm hunpack
      cases h
      obtain ⟨hdouble, he⟩ := isDouble_of_unpack hunpack
      exact ⟨hdouble, he, hunpack.trans (finiteOrZero_of_pos hm).symm⟩
    · rename_i hunpack
      cases h
      exact ⟨⟨Nat.two_pow_pos 53, le_rfl, Or.inr rfl⟩, by norm_num, hunpack⟩
    · cases h
    · cases h
  · rintro ⟨h, -, hunpack⟩
    rw [parts?, hunpack]
    by_cases hm : m = 0
    · subst hm
      obtain rfl : e = -1074 := h.full.resolve_left (by norm_num)
      rfl
    · simp only [finiteOrZero, dif_neg hm]

/-- From here on numbers are nearer to infinity than to a double: half a step above the greatest
double. -/
def overflow : ℚ := 2 ^ 1024 - 2 ^ 970

/-- The double is the nearest to the number. Every double with another value is farther away, or
as far but with an odd last digit where the nearest has an even one. Numbers that are too large
have an infinity. -/
def IsNearest (q : ℚ) (x : Float) : Prop :=
  if |q| < overflow then
    ∃ parts, parts? x = some parts ∧ ∀ y other, parts? y = some other →
      other.value ≠ parts.value →
        |q - parts.value| < |q - other.value| ∨
          (|q - parts.value| = |q - other.value| ∧ Even parts.digits ∧ ¬Even other.digits)
  else x.isInf

/-! ## Uniqueness -/

/-- A number of digits and an exponent is written in one way only. -/
theorem IsDouble.unique {m m' : Nat} {e e' : Int} (h : IsDouble m e) (h' : IsDouble m' e')
    (heq : (m : ℚ) * 2 ^ e = m' * 2 ^ e') : m = m' ∧ e = e' := by
  wlog hle : e ≤ e' generalizing m m' e e'
  · obtain ⟨hm, he⟩ := this h' h heq.symm (by omega)
    exact ⟨hm.symm, he.symm⟩
  obtain ⟨k, rfl⟩ := Int.le.dest hle
  have hstep : (2 : ℚ) ^ e ≠ 0 := by positivity
  rw [zpow_add₀ (by norm_num), zpow_natCast, mul_left_comm, mul_comm] at heq
  have hm : m = m' * 2 ^ k := by exact_mod_cast mul_left_cancel₀ hstep heq
  -- A greater exponent means a full mantissa, which leaves no room for more digits.
  have hk : k = 0 := by
    by_contra hne
    have hfull : 2 ^ 52 ≤ m' := h'.full.resolve_right (by have := h.le; omega)
    have htwo : 2 ≤ 2 ^ k := Nat.le_pow (Nat.pos_of_ne_zero hne)
    have hmany : 2 ^ 52 * 2 ≤ m' * 2 ^ k := Nat.mul_le_mul hfull htwo
    have hlt := h.lt
    omega
  subst hk
  exact ⟨by simpa using hm, by simp⟩

/-- The sign of a finite double is that of its parts. -/
theorem sign?_of_parts? {x : Float} {parts : Parts} (h : parts? x = some parts) :
    sign? x = some parts.sign := by
  rw [sign?, (parts?_eq_some_iff.1 h).2.2]
  by_cases hm : parts.digits = 0
  · simp only [finiteOrZero, dif_pos hm]
  · simp only [finiteOrZero, dif_neg hm]

/-- A finite double is determined by its value and its sign. -/
theorem eq_of_parts? {x y : Float} {parts other : Parts} (hx : parts? x = some parts)
    (hy : parts? y = some other) (hvalue : other.value = parts.value)
    (hsign : sign? x = sign? y) : x = y := by
  rw [sign?_of_parts? hx, sign?_of_parts? hy] at hsign
  obtain ⟨hdouble, -, hunpack⟩ := parts?_eq_some_iff.1 hx
  obtain ⟨hdouble', -, hunpack'⟩ := parts?_eq_some_iff.1 hy
  obtain ⟨sign, m, e⟩ := parts
  obtain ⟨sign', m', e'⟩ := other
  obtain rfl : sign = sign' := Option.some.inj hsign
  have hsize : (m : ℚ) * 2 ^ e = m' * 2 ^ e' := by
    cases sign
    · exact (neg_injective hvalue).symm
    · exact hvalue.symm
  obtain ⟨rfl, rfl⟩ := hdouble.unique hdouble' hsize
  exact eq_of_unpack (hunpack.trans hunpack'.symm)

/-- An infinity is determined by its sign. -/
theorem eq_of_isInf {x y : Float} (hx : x.isInf = true) (hy : y.isInf = true)
    (hsign : sign? x = sign? y) : x = y := by
  have hinf (x : Float) (hx : x.isInf = true) : ∃ sign, x.toModel.unpack = .infinity sign := by
    change UnpackedFloat.isInf x.toModel.unpack = true at hx
    cases hunpack : x.toModel.unpack with
    | infinity sign => exact ⟨sign, rfl⟩
    | _ =>
      rw [hunpack] at hx
      cases hx
  obtain ⟨sign, hx⟩ := hinf x hx
  obtain ⟨sign', hy⟩ := hinf y hy
  simp only [sign?, hx, hy] at hsign
  obtain rfl := Option.some.inj hsign
  exact eq_of_unpack (hx.trans hy.symm)

/-- There is one nearest double of each sign. -/
theorem IsNearest.unique {q : ℚ} {x y : Float} (hx : IsNearest q x) (hy : IsNearest q y)
    (hsign : sign? x = sign? y) : x = y := by
  unfold IsNearest at hx hy
  split at hx
  · rename_i hlt
    rw [if_pos hlt] at hy
    obtain ⟨parts, hparts, hnearest⟩ := hx
    obtain ⟨other, hother, hnearest'⟩ := hy
    refine eq_of_parts? hparts hother ?_ hsign
    by_contra hne
    rcases hnearest y other hother hne with hlt | ⟨heq, heven, -⟩
    · rcases hnearest' x parts hparts (Ne.symm hne) with hlt' | ⟨heq', -⟩
      · exact hlt'.not_gt hlt
      · exact hlt.ne' heq'
    · rcases hnearest' x parts hparts (Ne.symm hne) with hlt' | ⟨-, -, hodd⟩
      · exact hlt'.ne' heq
      · exact hodd heven
  · rename_i hge
    rw [if_neg hge] at hy
    exact eq_of_isInf hx hy hsign

/-! ## Negation -/

/-- Negation changes the sign and nothing else. -/
theorem unpack_neg (x : Float) : (-x).toModel.unpack = x.toModel.unpack.neg := by
  change (Float.Model.pack x.toModel.unpack.neg).unpack = _
  cases hunpack : x.toModel.unpack with
  | notANumber => rfl
  | infinity sign => cases sign <;> rfl
  | zero sign => cases sign <;> rfl
  | finite sign m e hm =>
    obtain ⟨h, he⟩ := isDouble_of_unpack hunpack
    have hself := @unpack_pack (-sign) m e h he
    rwa [finiteOrZero_of_pos hm] at hself

/-- The parts with the other sign. -/
def Parts.neg (parts : Parts) : Parts := { parts with sign := -parts.sign }

/-- The other sign makes the value negative. -/
theorem Parts.value_neg (parts : Parts) : parts.neg.value = -parts.value := by
  obtain ⟨sign, m, e⟩ := parts
  cases sign
  · exact (neg_neg _).symm
  · rfl

/-- A negated double has the parts with the other sign. -/
theorem parts?_neg (x : Float) : parts? (-x) = (parts? x).map Parts.neg := by
  rw [parts?, parts?, unpack_neg]
  cases x.toModel.unpack <;> rfl

/-- A negated double has the other sign. -/
theorem sign?_neg (x : Float) : sign? (-x) = (sign? x).map (-·) := by
  rw [sign?, sign?, unpack_neg]
  cases x.toModel.unpack <;> rfl

/-- The negative of a number has the negated double as its nearest. -/
theorem IsNearest.neg {q : ℚ} {x : Float} (h : IsNearest q x) : IsNearest (-q) (-x) := by
  unfold IsNearest at h ⊢
  rw [abs_neg]
  split at h
  · rename_i hlt
    obtain ⟨parts, hparts, hnearest⟩ := h
    rw [if_pos hlt]
    refine ⟨parts.neg, by rw [parts?_neg, hparts, Option.map_some], fun y other hy hne => ?_⟩
    have hdist (v : ℚ) : |-q - v| = |q - -v| := by
      rw [abs_sub_comm, sub_neg_eq_add, sub_neg_eq_add, add_comm]
    have hflip := hnearest (-y) other.neg (by rw [parts?_neg, hy, Option.map_some]) ?_
    · rw [Parts.value_neg] at hflip
      rwa [hdist, hdist, Parts.value_neg, neg_neg]
    · rw [Parts.value_neg] at hne ⊢
      exact fun heq => hne (by rw [← heq, neg_neg])
  · rename_i hge
    rw [if_neg hge]
    change UnpackedFloat.isInf (-x).toModel.unpack = true
    rw [unpack_neg]
    change UnpackedFloat.isInf x.toModel.unpack = true at h
    cases hunpack : x.toModel.unpack <;> rw [hunpack] at h <;> first | rfl | cases h

end PageText.Number.Double
