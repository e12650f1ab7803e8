/-!
# Reading bits

Compressed data is a sequence of bits, the low bit of each byte first. A reader
takes bits from the front and either answers or reports why the data is no good:
it ended, or it breaks a rule of the format.
-/

namespace PageText.Filter

/-- Why compressed data cannot be read on. -/
inductive Fault where
  /-- The data ends too early. -/
  | cutShort
  /-- The data breaks the format. -/
  | corrupt
  deriving DecidableEq, Repr

/-- How far the bits of a byte sequence have been read. -/
structure Bits where
  /-- The number of bits read. -/
  taken : Nat
  /-- The bits after these. -/
  rest : List Bool

/-- A reader of bits. -/
abbrev BitReader (α : Type) := EStateM Fault Bits α

namespace BitReader

/-- The bits of a byte, the low one first. -/
def bitsOfByte (b : UInt8) : List Bool := (List.range 8).map b.toNat.testBit

/-- The bits of a byte sequence, none of them read. -/
def bitsOf (bytes : List UInt8) : Bits := ⟨0, bytes.flatMap bitsOfByte⟩

/-- Take one bit. -/
def bit : BitReader Bool := fun bits =>
  match bits.rest with
  | [] => .error .cutShort bits
  | b :: rest => .ok b ⟨bits.taken + 1, rest⟩

/-- Take a number of the given width, the low bit first. -/
def number : Nat → BitReader Nat
  | 0 => pure 0
  | width + 1 => do
    let low ← bit
    let high ← number width
    pure (low.toNat + 2 * high)

/-- Drop what is left of the current byte. -/
def align : BitReader Unit := modify fun bits =>
  let left := (8 - bits.taken % 8) % 8
  ⟨bits.taken + left, bits.rest.drop left⟩

end BitReader

end PageText.Filter
