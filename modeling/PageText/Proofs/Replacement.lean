import Mathlib.Data.List.Infix
import PageText.Proofs.Utf8

/-!
# ASCII among bytes that need not be text

Decoding replaces what is no text, but it neither makes up ASCII characters nor loses any. So
a word of such characters stands in the decoded text only where its bytes stood, and the bytes
before an ASCII byte are decoded as if nothing followed them.
-/

namespace PageText.Text.Utf8

/-- The characters that are their own bytes, the null character apart. -/
def IsAscii (c : Char) : Prop := 0 < c.toNat ∧ c.toNat < 0x80

/-- What holds of an unfinished character between bytes. -/
structure Pending.Proper (pending : Pending) : Prop where
  /-- No ASCII byte continues it. -/
  least : 0x80 ≤ pending.least.toNat
  /-- Only bytes with six bits continue it. -/
  greatest : pending.greatest.toNat ≤ 0xBF
  /-- Whatever bytes continue it, its value lies past ASCII. -/
  past : 0x80 ≤ (pending.bits * 64 + (pending.least.toNat - 0x80)) * 64 ^ (pending.owed - 1)

/-- Bounds that shut nothing out are proper; the bits have to be past ASCII by themselves. -/
theorem Pending.Proper.of_bits {owed bits : Nat} (h : 0x80 ≤ bits * 64 * 64 ^ (owed - 1)) :
    Proper ⟨owed, 0x80, 0xBF, bits⟩ where
  least := Nat.le_refl 0x80
  greatest := Nat.le_refl 0xBF
  past := by rwa [show (0x80 : UInt8).toNat = 0x80 from rfl, Nat.sub_self, Nat.add_zero]

/-- Between characters nothing is unfinished. -/
theorem proper_none : ∀ pending ∈ (none : Option Pending), pending.Proper := fun _ he => nomatch he

/-- An unfinished character is the only one. -/
theorem Pending.Proper.some {pending : Pending} (hp : pending.Proper) :
    ∀ proper ∈ Option.some pending, proper.Proper := fun _ he => Option.some.inj he ▸ hp

/-- The replacement is none of ASCII. -/
theorem not_isAscii_replacement : ¬IsAscii replacement := fun h => absurd h.2 (by decide)

/-- The character of a value past ASCII is none of ASCII; where there is none it is the null
character. -/
theorem not_isAscii_ofNat {n : Nat} (hn : 0x80 ≤ n) : ¬IsAscii (Char.ofNat n) := by
  by_cases hvalid : n.isValidChar
  · rw [IsAscii, toNat_ofNat hvalid]
    omega
  · have hnull : Char.ofNat n = Char.ofNat 0 := by
      rw [Char.ofNat, dif_neg hvalid]
      rfl
    rw [hnull]
    exact fun h => absurd h.1 (by decide)

/-- A byte between characters is one of ASCII, opens a character, or is replaced. -/
theorem feedFirst_cases (b : UInt8) :
    (b < 0x80 ∧ feedFirst b = ([Char.ofNat b.toNat], none)) ∨
      (∃ pending, pending.Proper ∧ feedFirst b = ([], some pending)) ∨
      feedFirst b = ([replacement], none) := by
  unfold feedFirst
  split
  · exact .inl ⟨‹_›, rfl⟩
  right
  split
  · rename_i hb
    simp only [Bool.and_eq_true, decide_eq_true_eq, UInt8.le_iff_toNat_le, UInt8.reduceToNat] at hb
    refine .inl ⟨_, .of_bits ?_, rfl⟩
    norm_num only
    omega
  split
  · exact .inl ⟨_, ⟨by decide, by decide, by decide⟩, rfl⟩
  rename_i hne
  split
  · exact .inl ⟨_, ⟨by decide, by decide, by decide⟩, rfl⟩
  split
  · rename_i hb
    rw [beq_iff_eq, ← UInt8.toNat_inj] at hne
    simp only [Bool.and_eq_true, decide_eq_true_eq, UInt8.le_iff_toNat_le, UInt8.reduceToNat]
      at hb hne
    refine .inl ⟨_, .of_bits ?_, rfl⟩
    norm_num only
    omega
  split
  · exact .inl ⟨_, ⟨by decide, by decide, by decide⟩, rfl⟩
  rename_i hne
  split
  · exact .inl ⟨_, ⟨by decide, by decide, by decide⟩, rfl⟩
  split
  · rename_i hb
    rw [beq_iff_eq, ← UInt8.toNat_inj] at hne
    simp only [Bool.and_eq_true, decide_eq_true_eq, UInt8.le_iff_toNat_le, UInt8.reduceToNat]
      at hb hne
    refine .inl ⟨_, .of_bits ?_, rfl⟩
    norm_num only
    omega
  · exact .inr rfl

/-- Between characters a byte is decoded to itself, opens a character, or is replaced. -/
theorem decodeFrom_none_cases (b : UInt8) :
    (b < 0x80 ∧ ∀ rest, decodeFrom none (b :: rest) =
      Char.ofNat b.toNat :: decodeFrom none rest) ∨
    (∃ pending, pending.Proper ∧ ∀ rest, decodeFrom none (b :: rest) =
      decodeFrom (some pending) rest) ∨
    ∀ rest, decodeFrom none (b :: rest) = replacement :: decodeFrom none rest := by
  rcases feedFirst_cases b with ⟨hb, hfeed⟩ | ⟨pending, hp, hfeed⟩ | hfeed
  · exact .inl ⟨hb, fun rest => by rw [decodeFrom, feed, hfeed]; rfl⟩
  · exact .inr (.inl ⟨pending, hp, fun rest => by rw [decodeFrom, feed, hfeed]; rfl⟩)
  · exact .inr (.inr fun rest => by rw [decodeFrom, feed, hfeed]; rfl)

/-- Within a character a byte continues it, finishes it past ASCII, or is read afresh after
what has been replaced. -/
theorem decodeFrom_some_cases {pending : Pending} (hp : pending.Proper) (b : UInt8) :
    (0x80 ≤ b.toNat ∧ ∃ next, next.Proper ∧ ∀ rest, decodeFrom (some pending) (b :: rest) =
      decodeFrom (some next) rest) ∨
    (0x80 ≤ b.toNat ∧ ∃ c, ¬IsAscii c ∧ ∀ rest, decodeFrom (some pending) (b :: rest) =
      c :: decodeFrom none rest) ∨
    ∀ rest, decodeFrom (some pending) (b :: rest) =
      replacement :: decodeFrom none (b :: rest) := by
  obtain ⟨hleast, hgreatest, hpast⟩ := hp
  by_cases hb : (pending.least ≤ b && b ≤ pending.greatest) = true
  · have hbounds := hb
    simp only [Bool.and_eq_true, decide_eq_true_eq, UInt8.le_iff_toNat_le] at hbounds
    have hbits : pending.bits * 64 + (pending.least.toNat - 0x80) ≤
        pending.bits * 64 + b.toNat % 64 := by omega
    by_cases ho : pending.owed ≤ 1
    · refine .inr (.inl ⟨by omega, Char.ofNat (pending.bits * 64 + b.toNat % 64),
        not_isAscii_ofNat ?_, fun rest => ?_⟩)
      · rw [Nat.sub_eq_zero_of_le ho, Nat.pow_zero, Nat.mul_one] at hpast
        exact hpast.trans hbits
      · simp only [decodeFrom, feed, if_pos hb, if_pos ho, List.singleton_append]
    · refine .inl ⟨by omega,
        ⟨pending.owed - 1, 0x80, 0xBF, pending.bits * 64 + b.toNat % 64⟩,
        .of_bits ?_, fun rest => ?_⟩
      · have hpow : 64 ^ (pending.owed - 1) = 64 * 64 ^ (pending.owed - 1 - 1) := by
          rw [← Nat.pow_succ']
          congr 1
          omega
        rw [hpow, ← Nat.mul_assoc] at hpast
        exact hpast.trans (Nat.mul_le_mul_right _ (Nat.mul_le_mul_right 64 hbits))
      · simp only [decodeFrom, feed, if_pos hb, if_neg ho, List.nil_append]
  · refine .inr (.inr fun rest => ?_)
    simp only [decodeFrom, feed, if_neg hb, List.cons_append]

/-- What an unfinished character comes to is none of ASCII. -/
theorem exists_decodeFrom_some {pending : Pending} (hp : pending.Proper) (bytes : List UInt8) :
    ∃ c rest, decodeFrom (some pending) bytes = c :: rest ∧ ¬IsAscii c := by
  induction bytes generalizing pending with
  | nil => exact ⟨replacement, [], rfl, not_isAscii_replacement⟩
  | cons b bytes ih =>
    rcases decodeFrom_some_cases hp b with ⟨-, next, hn, hs⟩ | ⟨-, c, hc, hs⟩ | hs
    · rw [hs]
      exact ih hn
    · exact ⟨c, _, hs bytes, hc⟩
    · exact ⟨replacement, _, hs bytes, not_isAscii_replacement⟩

variable {word : List Char}

/-- Where decoded text begins with a word of ASCII, the bytes begin with it. -/
theorem encode_begins (hword : ∀ c ∈ word, IsAscii c) {bytes : List UInt8}
    (h : word <+: decodeFrom none bytes) : encode word <+: bytes := by
  induction word generalizing bytes with
  | nil => exact List.nil_prefix
  | cons c word ih =>
    obtain ⟨hc, htail⟩ := List.forall_mem_cons.1 hword
    cases bytes with
    | nil => exact absurd (List.prefix_nil.1 h) (List.cons_ne_nil _ _)
    | cons b bytes =>
      rcases decodeFrom_none_cases b with ⟨hb, hs⟩ | ⟨pending, hp, hs⟩ | hs <;> rw [hs] at h
      · obtain ⟨rfl, hrest⟩ := List.cons_prefix_cons.1 h
        have hvalue : (Char.ofNat b.toNat).toNat = b.toNat :=
          toNat_ofNat (Or.inl (Nat.lt_trans b.toNat_lt (by decide)))
        have hone : encodeChar (Char.ofNat b.toNat) = [b] := by
          rw [encodeChar_ascii hc.2, hvalue, Nat.toUInt8_eq, UInt8.ofNat_toNat]
        rw [encode, List.flatMap_cons, hone, List.singleton_append]
        exact List.cons_prefix_cons.2 ⟨rfl, ih htail hrest⟩
      · obtain ⟨d, rest, hd, hforeign⟩ := exists_decodeFrom_some hp bytes
        rw [hd] at h
        exact absurd ((List.cons_prefix_cons.1 h).1 ▸ hc) hforeign
      · exact absurd ((List.cons_prefix_cons.1 h).1 ▸ hc) not_isAscii_replacement

/-- A word of ASCII does not begin at another character. -/
theorem occurs_of_occurs_cons (hword : ∀ c ∈ word, IsAscii c) (hne : word ≠ []) {c : Char}
    (hc : ¬IsAscii c) {rest : List Char} (h : word <:+: c :: rest) : word <:+: rest := by
  refine (List.infix_cons_iff.1 h).resolve_left fun hp => ?_
  obtain ⟨d, word, rfl⟩ := List.exists_cons_of_ne_nil hne
  exact hc ((List.cons_prefix_cons.1 hp).1 ▸ hword d List.mem_cons_self)

/-- Where a word of ASCII stands in decoded text, it stands in the bytes. -/
theorem encode_occurs (hword : ∀ c ∈ word, IsAscii c) (hne : word ≠ []) {pending : Option Pending}
    (hp : ∀ proper ∈ pending, proper.Proper) {bytes : List UInt8}
    (h : word <:+: decodeFrom pending bytes) : encode word <:+: bytes := by
  have hbroken : ¬word <:+: [replacement] := fun hi =>
    hne (List.infix_nil.1 (occurs_of_occurs_cons hword hne not_isAscii_replacement hi))
  induction bytes generalizing pending with
  | nil =>
    cases pending with
    | none => exact absurd (List.infix_nil.1 h) hne
    | some pending => exact absurd h hbroken
  | cons b bytes ih =>
    have hrest {next : Option Pending} (hn : ∀ proper ∈ next, proper.Proper)
        (hi : word <:+: decodeFrom next bytes) : encode word <:+: b :: bytes :=
      (ih hn hi).trans (List.suffix_cons b bytes).isInfix
    have hnone (hi : word <:+: decodeFrom none (b :: bytes)) : encode word <:+: b :: bytes := by
      rcases decodeFrom_none_cases b with ⟨hb, hs⟩ | ⟨next, hn, hs⟩ | hs
      · rcases List.infix_cons_iff.1 (hs bytes ▸ hi) with hprefix | hinfix
        · exact (encode_begins hword (hs bytes ▸ hprefix)).isInfix
        · exact hrest proper_none hinfix
      · exact hrest hn.some (hs bytes ▸ hi)
      · exact hrest proper_none
          (occurs_of_occurs_cons hword hne not_isAscii_replacement (hs bytes ▸ hi))
    cases pending with
    | none => exact hnone h
    | some pending =>
      rcases decodeFrom_some_cases (hp pending rfl) b with
        ⟨-, next, hn, hs⟩ | ⟨-, c, hc, hs⟩ | hs <;> rw [hs] at h
      · exact hrest hn.some h
      · exact hrest proper_none (occurs_of_occurs_cons hword hne hc h)
      · exact hnone (occurs_of_occurs_cons hword hne not_isAscii_replacement h)

/-- Bytes before one of ASCII are decoded as if nothing followed them. -/
theorem decodeFrom_append {pending : Option Pending} (hp : ∀ proper ∈ pending, proper.Proper)
    {b : UInt8} (hb : b < 0x80) (bytes rest : List UInt8) :
    decodeFrom pending (bytes ++ b :: rest) =
      decodeFrom pending bytes ++ decodeFrom none (b :: rest) := by
  induction bytes generalizing pending with
  | nil =>
    cases pending with
    | none => rfl
    | some pending =>
      rcases decodeFrom_some_cases (hp pending rfl) b with ⟨hle, -⟩ | ⟨hle, -⟩ | hs
      · exact absurd hb (Nat.not_lt.2 hle)
      · exact absurd hb (Nat.not_lt.2 hle)
      · exact hs rest
  | cons a bytes ih =>
    have hnone : decodeFrom none (a :: (bytes ++ b :: rest)) =
        decodeFrom none (a :: bytes) ++ decodeFrom none (b :: rest) := by
      rcases decodeFrom_none_cases a with ⟨-, hs⟩ | ⟨next, hn, hs⟩ | hs
      · rw [hs, hs, ih proper_none, List.cons_append]
      · rw [hs, hs, ih hn.some]
      · rw [hs, hs, ih proper_none, List.cons_append]
    rw [List.cons_append]
    cases pending with
    | none => exact hnone
    | some pending =>
      rcases decodeFrom_some_cases (hp pending rfl) a with
        ⟨-, next, hn, hs⟩ | ⟨-, c, -, hs⟩ | hs
      · rw [hs, hs, ih hn.some]
      · rw [hs, hs, ih proper_none, List.cons_append]
      · rw [hs, hs, hnone, List.cons_append]

/-- Text that begins with ASCII is read back wherever it stands. -/
theorem decodeLossy_append_encode {text : List Char} {c : Char} (ht : text.head? = some c)
    (hc : c.toNat < 0x80) (before after : List UInt8) :
    decodeLossy (before ++ (encode text ++ after)) =
      decodeLossy before ++ (text ++ decodeLossy after) := by
  obtain ⟨rest, rfl⟩ := List.head?_eq_some_iff.1 ht
  have hb : c.toNat.toUInt8 < 0x80 := by
    rw [UInt8.lt_iff_toNat_lt, toNat_toUInt8 (by omega)]
    exact hc
  have hencode : encode (c :: rest) ++ after =
      c.toNat.toUInt8 :: (encode rest ++ after) := by
    rw [encode, List.flatMap_cons, encodeChar_ascii hc, List.singleton_append, List.cons_append,
      encode]
  have hsplit := decodeFrom_append proper_none hb before (encode rest ++ after)
  rwa [← hencode, decodeFrom_encode] at hsplit

end PageText.Text.Utf8
