import PageText.Filter.Flate
import PageText.Filter.Inflate

/-!
# A decoder of deflated data

The decoder that programs run with: deflated data as it is, or in an envelope of two
header bytes and a checksum. Its output is taken in portions that grow with what is there
already. Data that is cut short hands over all its output; a breach of the format takes
with it the portion that is being filled.
-/

namespace PageText

namespace Filter.Inflate

/-- The checksum of the envelope: two sums modulo 65521. -/
def checksum (bytes : Array UInt8) : Nat :=
  let sums := bytes.foldl
    (fun (sums : Nat × Nat) b =>
      let low := (sums.1 + b.toNat) % 65521
      (low, (sums.2 + low) % 65521))
    (1, 0)
  sums.2 * 65536 + sums.1

/-- Whether two bytes can open the envelope: deflated data, a window of at most
32 KiB, no preset dictionary, and the check bits right. -/
def isHeader (method flags : UInt8) : Bool :=
  method.toNat % 16 == 8 && method.toNat / 16 ≤ 7 && flags.toNat / 32 % 2 == 0 &&
    (method.toNat * 256 + flags.toNat) % 31 == 0

/-- Read one byte. -/
def byte : BitReader Nat := BitReader.number 8

/-- Read the envelope's header. -/
def readHeader : BitReader Unit := do
  let method ← byte
  let flags ← byte
  if isHeader method.toUInt8 flags.toUInt8 then pure () else throw .corrupt

/-- Read the envelope's checksum and compare it. -/
def readChecksum (output : Array UInt8) : BitReader Unit := do
  BitReader.align
  let b₁ ← byte
  let b₂ ← byte
  let b₃ ← byte
  let b₄ ← byte
  if ((b₁ * 256 + b₂) * 256 + b₃) * 256 + b₄ = checksum output then pure () else throw .corrupt

/-- Decode data in its envelope. -/
def envelope : Decoder Unit := do
  Decoder.read readHeader
  blocks
  let progress ← get
  Decoder.read (readChecksum progress.output)

/-- The buffer that output is taken into. -/
structure Buffer where
  /-- How much has been taken. -/
  size : Nat
  /-- How much there is room for without growing. -/
  capacity : Nat
  /-- The most that is asked for at once. -/
  most : Nat

namespace Buffer

/-- The least that the buffer grows by. -/
def leastGrowth : Nat := 32

/-- Nothing has been taken. -/
def empty : Buffer := ⟨0, 0, 8192⟩

/-- A full buffer doubles. -/
def grow (buffer : Buffer) : Buffer :=
  if buffer.size < buffer.capacity then buffer
  else { buffer with capacity := max (2 * buffer.capacity) (buffer.size + leastGrowth) }

/-- How much is asked for. -/
def room (buffer : Buffer) : Nat := min (buffer.capacity - buffer.size) buffer.most

/-- Take some of what was asked for. If that is all of the most, more is asked for from
then on. -/
def take (buffer : Buffer) (count : Nat) : Buffer :=
  { buffer with
    size := buffer.size + count
    most := if count = buffer.most then 2 * buffer.most else buffer.most }

/-- Decode until a portion of the given size is filled or input has to be fetched, from
where `taken` bytes are taken: how much was decoded, and the pauses that are left. There
is none if the fault comes before. -/
def fill (taken room : Nat) : List Pause → Option (Nat × List Pause)
  | [] => none
  | pause :: later =>
    if taken + room ≤ pause.size ∨ pause.fetches ∧ taken < pause.size then
      some (pause.size, later)
    else fill taken room later

/-- How much is taken before a fault: `decoded` is how much was decoded before the pauses.
The first argument bounds the number of portions. -/
def takenOf : Nat → Buffer → Nat → List Pause → Nat
  | 0, buffer, _, _ => buffer.size
  | portions + 1, buffer, decoded, pauses =>
    let buffer := buffer.grow
    if buffer.size < decoded then
      takenOf portions (buffer.take (min buffer.room (decoded - buffer.size))) decoded pauses
    else
      match fill buffer.size buffer.room pauses with
      | none => buffer.size
      | some (decoded, later) =>
        takenOf portions (buffer.take (min buffer.room (decoded - buffer.size))) decoded later

end Buffer

/-- What a decoder hands over of the data. -/
def inflationOf (decoder : Decoder Unit) (bytes : List UInt8) : Inflation :=
  match decoder.run ⟨BitReader.bitsOf bytes, #[], []⟩ with
  | .ok () progress => ⟨progress.output.toList, none⟩
  | .error .cutShort progress => ⟨progress.output.toList, some "incomplete deflate stream"⟩
  | .error .corrupt progress =>
    let taken := Buffer.takenOf (progress.output.size + 1) .empty 0 progress.pauses.reverse
    ⟨progress.output.toList.take taken, some "corrupt deflate stream"⟩

end Filter.Inflate

/-- The decoders that programs run with. -/
def Inflater.standard : Inflater where
  enveloped := Filter.Inflate.inflationOf Filter.Inflate.envelope
  bare := Filter.Inflate.inflationOf Filter.Inflate.blocks

end PageText
