import PageText.Filter.Bits

/-!
# Canonical codes

A canonical code is fixed by the length of each symbol's codeword: shorter
codewords come first, and among equals smaller symbols. It is kept as the number
of codewords of each length and the symbols in code order.
-/

namespace PageText.Filter

/-- A canonical code with codewords of one to fifteen bits. -/
structure Code where
  /-- Number of codewords of length one, two, and so on. -/
  counts : List Nat
  /-- The symbols in code order. -/
  symbols : Array Nat

namespace Code

/-- The greatest codeword length. -/
def maxLength : Nat := 15

/-- The code in which symbol `i` has a codeword of the `i`th length; length zero
means that the symbol has none. -/
def ofLengths (lengths : List Nat) : Code :=
  let widths := (List.range maxLength).map (· + 1)
  let withSymbols := lengths.zipIdx
  { counts := widths.map fun w => lengths.count w
    symbols := (widths.flatMap fun w =>
      (withSymbols.filter fun entry => entry.1 == w).map Prod.snd).toArray }

/-- Number of symbols that have a codeword. -/
def used (code : Code) : Nat := code.counts.foldl (· + ·) 0

/-- Every bit sequence begins with a codeword, and none with two. -/
def isComplete (code : Code) : Bool :=
  code.counts.foldl (fun space count => (space + count) * 2) 0 == Nat.pow 2 (maxLength + 1)

/-- There is no codeword, or only one, which has one bit. -/
def isTrivial (code : Code) : Bool := code.used ≤ 1 && code.counts.headD 0 == code.used

/-- Follow the bits through codewords of growing length: `word` is what has been
read, `first` the first codeword of this length and `index` the place of its
symbol. -/
def readFrom (symbols : Array Nat) : List Nat → Nat → Nat → Nat → BitReader Nat
  | [], _, _, _ => throw .corrupt
  | count :: counts, word, first, index => do
    let word := word + (← BitReader.bit).toNat
    if word < first + count then pure (symbols.getD (index + (word - first)) 0)
    else if counts.all (· == 0) then throw .corrupt
    else readFrom symbols counts (word * 2) ((first + count) * 2) (index + count)

/-- Read one symbol. Bits that are no codeword are a breach of the format as soon as
no longer codeword is left. -/
def read (code : Code) : BitReader Nat := readFrom code.symbols code.counts 0 0 0

end Code

end PageText.Filter
