/-!
# The shortest decimal of a float

A finite float is `significand · 2^exponent` for whole numbers, and every real number nearer to it
than to its neighbours reads back as it. `shortest` gives the decimal with the fewest digits among
the numbers that read back, and of several the nearest. It searches the grids of the powers of ten
from the coarsest down. On each grid only the two points around the float can be nearest to it, so
a grid on which neither reads back has no point that does.
-/

namespace PatternSampler

/-- A decimal number, `significand · 10^exponent`. -/
structure Decimal where
  significand : Nat
  exponent : Int
  deriving DecidableEq, Repr

namespace Decimal

/-- A positive binary number, `significand · 2^exponent`. -/
structure Binary where
  significand : Nat
  exponent : Int
  deriving DecidableEq, Repr

/-- The topmost bit of a significand, which the bits of a float leave out. -/
def hiddenBit : Nat := 0x10000000000000

/-- The magnitude of a finite float. -/
def Binary.ofFloat (x : Float) : Binary :=
  let bits := x.toBits.toNat
  let fraction := bits % hiddenBit
  let scale := bits / hiddenBit % 0x800
  if scale = 0 then ⟨fraction, -1074⟩ else ⟨hiddenBit + fraction, Int.ofNat scale - 1075⟩

/-- A number of quarter units is given by how many there are, in units of the last place of a
float. This is the float itself. -/
def Binary.centre (b : Binary) : Nat := 4 * b.significand

/-- The lower end, in quarter units, of the numbers that read back as the float. Below a power of
two the neighbour is only half as far away. -/
def Binary.low (b : Binary) : Nat :=
  if b.significand = hiddenBit ∧ -1074 < b.exponent then b.centre - 1 else b.centre - 2

/-- The upper end, in quarter units, of the numbers that read back as the float. -/
def Binary.high (b : Binary) : Nat := b.centre + 2

/-- The decimal and a number of quarter units on a common scale, so that they can be compared. -/
def Binary.common (b : Binary) (d : Decimal) (quarters : Nat) : Nat × Nat :=
  let e := b.exponent - 2
  (d.significand * Nat.pow 10 d.exponent.toNat * Nat.pow 2 (-e).toNat,
    quarters * Nat.pow 2 e.toNat * Nat.pow 10 (-d.exponent).toNat)

/-- The decimal reads back as the float. The ends of the interval belong to it exactly when the
significand is even, because a tie is read as the even neighbour. -/
def Binary.readsBack (b : Binary) (d : Decimal) : Bool :=
  let (x, low) := b.common d b.low
  let (_, high) := b.common d b.high
  if b.significand % 2 = 0 then low ≤ x && x ≤ high else low < x && x < high

/-- How far the decimal is from the float, on the common scale. -/
def Binary.distance (b : Binary) (d : Decimal) : Nat :=
  let (x, centre) := b.common d b.centre
  (x - centre) + (centre - x)

/-- The point of a grid that the float reads back from: of the two around it the nearer, and at a
tie the even one. -/
def Binary.onGrid (b : Binary) (exponent : Int) : Option Decimal :=
  let (unit, centre) := b.common ⟨1, exponent⟩ b.centre
  let below : Decimal := ⟨centre / unit, exponent⟩
  let above : Decimal := ⟨centre / unit + 1, exponent⟩
  match b.readsBack below, b.readsBack above with
  | false, false => none
  | true, false => some below
  | false, true => some above
  | true, true =>
    if b.distance below < b.distance above then some below
    else if b.distance above < b.distance below then some above
    else if below.significand % 2 = 0 then some below else some above

/-- The decimal of fewest digits that reads back as a positive float. -/
def shortest (b : Binary) : Decimal :=
  ((List.range 660).findSome? fun (i : Nat) => b.onGrid (309 - i)).getD ⟨0, 0⟩

end Decimal

end PatternSampler
