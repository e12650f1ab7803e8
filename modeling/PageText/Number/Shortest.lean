/-!
# Shortest decimals

Among the decimals that round to a single-precision number, the shortest one is the
one on the coarsest grid of powers of ten; of two on that grid the nearer counts, and
of two equally near ones the even. Everything is decided on natural numbers. Where a
decimal gets its point and its exponent is up to whoever writes it.
-/

namespace PageText.Number

/-- The number `digits * 10 ^ exponent`. -/
structure Decimal where
  /-- The digits, as one number. -/
  digits : Nat
  /-- The power of ten. -/
  exponent : Int
  deriving DecidableEq

/-- A positive number with the bounds of what rounds to it, all three in units of
`2 ^ exponent`. -/
structure Rounding where
  /-- The lower bound. -/
  low : Nat
  /-- The number. -/
  value : Nat
  /-- The upper bound. -/
  high : Nat
  /-- Whether the bounds themselves round to the number. -/
  closed : Bool
  /-- The power of two. -/
  exponent : Int

namespace Rounding

/-- The leading bit of a mantissa, which the bits of a number leave out. -/
def hiddenBit : Nat := 0x800000

/-- The rounding of a positive finite single-precision number, given by its bits. In
quarters of the last place, the bounds are two away; below a power of two only one,
because the numbers are denser there. -/
def ofBits (bits : Nat) : Rounding :=
  let fraction := bits % hiddenBit
  let field := bits / hiddenBit % 256
  let mantissa := if field = 0 then fraction else hiddenBit + fraction
  let gap := if fraction = 0 && 1 < field then 1 else 2
  { low := 4 * mantissa - gap
    value := 4 * mantissa
    high := 4 * mantissa + 2
    closed := mantissa % 2 = 0
    exponent := (max 1 field : Nat) - 152 }

/-- The factor that makes the numbers of a rounding comparable with the grid of
`10 ^ k`. -/
def numberFactor (r : Rounding) (k : Int) : Nat :=
  Nat.pow 2 r.exponent.toNat * Nat.pow 10 (-k).toNat

/-- The factor that makes the grid comparable with the numbers of a rounding. -/
def gridFactor (r : Rounding) (k : Int) : Nat :=
  Nat.pow 10 k.toNat * Nat.pow 2 (-r.exponent).toNat

/-- Whether a point of the grid of `10 ^ k` rounds to the number. -/
def admits (r : Rounding) (k : Int) (d : Nat) : Bool :=
  let point := d * r.gridFactor k
  let low := r.low * r.numberFactor k
  let high := r.high * r.numberFactor k
  if r.closed then low ≤ point && point ≤ high else low < point && point < high

/-- Whether the grid point below is the better one of the two around the number. -/
def belowIsNearer (r : Rounding) (k : Int) (below : Nat) : Bool :=
  let twice := 2 * r.value * r.numberFactor k
  let middle := (2 * below + 1) * r.gridFactor k
  twice < middle || (twice == middle && below % 2 == 0)

/-- The point of the grid of `10 ^ k` that stands for the number, if one does. -/
def onGrid? (r : Rounding) (k : Int) : Option Nat :=
  let below := r.value * r.numberFactor k / r.gridFactor k
  match r.admits k below, r.admits k (below + 1) with
  | true, true => some (if r.belowIsNearer k below then below else below + 1)
  | true, false => some below
  | false, true => some (below + 1)
  | false, false => none

/-- The powers of ten of all grids that matter to single precision, the coarsest
first. -/
def grids : List Int := (List.range 100).map fun (n : Nat) => 40 - (n : Int)

/-- The shortest decimal. -/
def shortest (r : Rounding) : Decimal :=
  (grids.findSome? fun k => (r.onGrid? k).map fun d => ⟨d, k⟩).getD ⟨0, 0⟩

end Rounding

end PageText.Number
