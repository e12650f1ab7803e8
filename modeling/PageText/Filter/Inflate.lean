import PageText.Filter.Huffman

/-!
# Inflating

Deflated data is a sequence of blocks: stored bytes, or symbols of a fixed or a
transmitted code that stand for bytes and for copies of earlier output. Reading
goes in turns, each of which takes at least one bit, and what the turns before a
fault produced is kept. A copy that reaches back before the first byte of output
finds zeros there. Decoding pauses where more input has to be fetched and where the
window is full, which matters to how much of the output comes out before a fault.
-/

namespace PageText.Filter.Inflate

/-- What is being read. -/
inductive Mode where
  /-- The header of the next block. -/
  | header
  /-- The rest of a stored block: whether it is the last, and its missing bytes. -/
  | stored (last : Bool) (missing : Nat)
  /-- The symbols of a block: whether it is the last, and its two codes. -/
  | coded (last : Bool) (literals distances : Code)
  /-- Nothing more. -/
  | done

/-- What follows a block. -/
def afterBlock (last : Bool) : Mode := if last then .done else .header

/-- Codeword lengths of the fixed code for bytes and copy lengths. -/
def fixedLiterals : List Nat :=
  List.replicate 144 8 ++ List.replicate 112 9 ++ List.replicate 24 7 ++ List.replicate 8 8

/-- Codeword lengths of the fixed code for distances. -/
def fixedDistances : List Nat := List.replicate 32 5

/-- Base and number of further bits of each copy length, from symbol 257 on. -/
def lengthTable : Array (Nat × Nat) :=
  #[(3, 0), (4, 0), (5, 0), (6, 0), (7, 0), (8, 0), (9, 0), (10, 0), (11, 1), (13, 1),
    (15, 1), (17, 1), (19, 2), (23, 2), (27, 2), (31, 2), (35, 3), (43, 3), (51, 3), (59, 3),
    (67, 4), (83, 4), (99, 4), (115, 4), (131, 5), (163, 5), (195, 5), (227, 5), (258, 0)]

/-- Base and number of further bits of each distance. -/
def distanceTable : Array (Nat × Nat) :=
  #[(1, 0), (2, 0), (3, 0), (4, 0), (5, 1), (7, 1), (9, 2), (13, 2), (17, 3), (25, 3),
    (33, 4), (49, 4), (65, 5), (97, 5), (129, 6), (193, 6), (257, 7), (385, 7), (513, 8),
    (769, 8), (1025, 9), (1537, 9), (2049, 10), (3073, 10), (4097, 11), (6145, 11),
    (8193, 12), (12289, 12), (16385, 13), (24577, 13)]

/-- Read the further bits of a table entry; a symbol without one is a breach. -/
def entry (table : Array (Nat × Nat)) (symbol : Nat) : BitReader Nat :=
  match table[symbol]? with
  | none => throw .corrupt
  | some (base, width) => do pure (base + (← BitReader.number width))

/-- The order in which the lengths of the length code itself are sent. -/
def lengthCodeOrder : List Nat :=
  [16, 17, 18, 0, 8, 7, 9, 6, 10, 5, 11, 4, 12, 3, 13, 2, 14, 1, 15]

/-- Read the given number of three-bit lengths. -/
def smallLengths : Nat → BitReader (List Nat)
  | 0 => pure []
  | n + 1 => do
    let first ← BitReader.number 3
    pure (first :: (← smallLengths n))

/-- Read codeword lengths until at least `wanted` are there. The first argument
bounds the number of turns; a turn adds at least one length. -/
def lengths (code : Code) : Nat → Nat → List Nat → BitReader (List Nat)
  | 0, _, found => pure found
  | turns + 1, wanted, found =>
    if wanted ≤ found.length then pure found
    else do
      let symbol ← code.read
      if symbol < 16 then lengths code turns wanted (found ++ [symbol])
      else if symbol = 16 then
        match found.getLast? with
        | none => throw .corrupt
        | some previous =>
          let times ← BitReader.number 2
          lengths code turns wanted (found ++ List.replicate (3 + times) previous)
      else if symbol = 17 then
        let times ← BitReader.number 3
        lengths code turns wanted (found ++ List.replicate (3 + times) 0)
      else
        let times ← BitReader.number 7
        lengths code turns wanted (found ++ List.replicate (11 + times) 0)

/-- The code of the given lengths. It has to be complete, except that a trivial code
is let pass when `sparse` allows it. -/
def codeOf (sparse : Bool) (lengths : List Nat) : BitReader Code :=
  let code := Code.ofLengths lengths
  if code.isComplete || (sparse && code.isTrivial) then pure code else throw .corrupt

/-- Read the two codes of a block. -/
def transmittedCodes : BitReader (Code × Code) := do
  let literalCount := 257 + (← BitReader.number 5)
  let distanceCount := 1 + (← BitReader.number 5)
  let smallCount := 4 + (← BitReader.number 4)
  if literalCount > 286 || distanceCount > 30 then throw .corrupt
  let small ← smallLengths smallCount
  let sent := lengthCodeOrder.zip small
  let lengthCode ← codeOf false ((List.range 19).map fun s => (sent.lookup s).getD 0)
  let wanted := literalCount + distanceCount
  let all ← lengths lengthCode wanted wanted []
  if all.length ≠ wanted then throw .corrupt
  let literals ← codeOf true (all.take literalCount)
  let distances ← codeOf true (all.drop literalCount)
  pure (literals, distances)

/-- Read the header of a block. -/
def header : BitReader Mode := do
  let last ← BitReader.bit
  match (← BitReader.number 2) with
  | 0 => do
    BitReader.align
    let size ← BitReader.number 16
    let check ← BitReader.number 16
    if size + check = 65535 then pure (.stored last size) else throw .corrupt
  | 1 => pure (.coded last (Code.ofLengths fixedLiterals) (Code.ofLengths fixedDistances))
  | 2 => do
    let codes ← transmittedCodes
    pure (.coded last codes.1 codes.2)
  | _ => throw .corrupt

/-- What one turn adds to the output. -/
inductive Piece where
  /-- Nothing. -/
  | nothing
  /-- One byte. -/
  | byte (b : UInt8)
  /-- Bytes repeated from some distance back. -/
  | copy (size distance : Nat)

namespace Piece

/-- Append `count` bytes, each the one `distance` places before the end. -/
def appendCopy (distance : Nat) : Nat → Array UInt8 → Array UInt8
  | 0, output => output
  | count + 1, output =>
    let byte := if distance ≤ output.size then output.getD (output.size - distance) 0 else 0
    appendCopy distance count (output.push byte)

/-- Append a piece. -/
def appendTo (piece : Piece) (output : Array UInt8) : Array UInt8 :=
  match piece with
  | nothing => output
  | byte b => output.push b
  | copy size distance => appendCopy distance size output

end Piece

/-- Read one symbol of a block: what follows it, and what it stands for. -/
def symbol (last : Bool) (literals distances : Code) : BitReader (Mode × Piece) := do
  let symbol ← literals.read
  if symbol < 256 then pure (.coded last literals distances, .byte symbol.toUInt8)
  else if symbol = 256 then pure (afterBlock last, .nothing)
  else
    let size ← entry lengthTable (symbol - 257)
    let distance ← entry distanceTable (← distances.read)
    pure (.coded last literals distances, .copy size distance)

/-- One turn: a header, a stored byte or a symbol. -/
def turn : Mode → BitReader (Mode × Piece)
  | .header => do pure (← header, .nothing)
  | .stored last 0 => pure (afterBlock last, .nothing)
  | .stored last (missing + 1) => do
    let byte ← BitReader.number 8
    pure (.stored last missing, .byte byte.toUInt8)
  | .coded last literals distances => symbol last literals distances
  | .done => pure (.done, .nothing)

/-- A place at which decoding pauses. -/
structure Pause where
  /-- How much output there is. -/
  size : Nat
  /-- Whether more input has to be fetched before it goes on. -/
  fetches : Bool

/-- What a decoder has done so far. -/
structure Progress where
  /-- The bits read. -/
  bits : Bits
  /-- All output. -/
  output : Array UInt8
  /-- Where decoding paused, the last place first. -/
  pauses : List Pause

/-- A decoder, which keeps what it has done when it meets a fault. -/
abbrev Decoder := EStateM Fault Progress

namespace Decoder

/-- Input is fetched, and output is kept before it is handed over, by this many bytes. -/
def windowSize : Nat := 32768

/-- How often input has to be fetched until the given number of bits is there. -/
def fetches (bits : Nat) : Nat := (bits + windowSize * 8 - 1) / (windowSize * 8)

/-- Read bits. Decoding pauses where more input has to be fetched. -/
def read {α : Type} (reader : BitReader α) : Decoder α := fun progress =>
  let reached (bits : Bits) : Progress :=
    if fetches progress.bits.taken < fetches bits.taken then
      { progress with bits := bits, pauses := ⟨progress.output.size, true⟩ :: progress.pauses }
    else { progress with bits := bits }
  match reader.run progress.bits with
  | .ok result bits => .ok result (reached bits)
  | .error fault bits => .error fault (reached bits)

/-- Append a piece to the output. Decoding pauses where the window is full and there is
more to come. -/
def put (piece : Piece) : Decoder Unit := modify fun ⟨bits, output, pauses⟩ =>
  let before := output.size
  let output := piece.appendTo output
  let full := (output.size - 1) / windowSize * windowSize
  ⟨bits, output, if 0 < full ∧ before ≤ full then ⟨full, false⟩ :: pauses else pauses⟩

end Decoder

/-- Take turns until the last block ends. -/
def run : Nat → Mode → Decoder Unit
  | 0, _ => throw .cutShort
  | turns + 1, mode =>
    match mode with
    | .done => pure ()
    | mode => do
      let (mode, piece) ← Decoder.read (turn mode)
      Decoder.put piece
      run turns mode

/-- Read all blocks. A turn takes a bit, apart from the ends of stored blocks, of which
there are fewer than bits, and the last turn. -/
def blocks : Decoder Unit := do
  let progress ← get
  run (2 * progress.bits.rest.length + 2) .header

end PageText.Filter.Inflate
