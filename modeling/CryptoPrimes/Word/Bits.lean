import CryptoPrimes.Word
import CryptoPrimes.Fault

/-!
# Words bit by bit

Population count, parity, and the zeros at either end of a word.  The zero
counts come twice.  The direct forms look for the first set bit.  The masked
forms do the same work whatever the word: they turn the zeros in question into
ones by masking (below) or the other bits into ones by smearing (above), and
then count.  Both forms answer `w.bits` for the zero word.

Reversal by octets and by bits, and the perfect shuffle: `shuffle` sends bit
`i` of the low half to position `2 * i` and bit `i` of the high half to position
`2 * i + 1`, and `deshuffle` gathers them again.  Both run through the same
cascade of masked exchanges, in opposite order.  An exchange is an involution,
which is why the reversed cascade undoes the other.

Montgomery reduction needs, for an odd word `x`, the word `v` with
`v * x = -1` modulo `2 ^ w.bits`.  It is found by Newton's iteration: every odd
word is its own inverse modulo 8, and a step doubles the number of correct low
bits, so six steps are more than enough at either width.
-/

namespace CryptoPrimes.Word

variable {w : Width}

/-! ## Counting bits -/

/-- How many bits are set. -/
def weight (x : Word w) : Nat := x.bitList.count true

/-- Whether the number of set bits is odd. -/
def parity (x : Word w) : Bool := x.weight % 2 == 1

/-- Zero bits below the lowest set bit. -/
def trailingZeros (x : Word w) : Nat := x.bitList.idxOf true

/-- Zero bits above the highest set bit. -/
def leadingZeros (x : Word w) : Nat := x.bitList.reverse.idxOf true

/-- Position of the highest set bit, counted from 1; zero for the zero word. -/
def bitLength (x : Word w) : Nat := w.bits - x.leadingZeros

/-- `trailingZeros` without a branch: of `x` and `x - 1`, exactly the zeros
below the lowest set bit of `x` are clear in one and set in the other. -/
def trailingZerosMasked (x : Word w) : Nat := weight (~~~x &&& (x - 1))

/-- The distances by which the highest set bit is smeared downwards. -/
def smearDistances : Width → List Nat
  | .w32 => [1, 2, 4, 8, 16]
  | .w64 => [1, 2, 4, 8, 16, 32]

/-- Every bit below the highest set bit is set as well. -/
def smear (x : Word w) : Word w :=
  (smearDistances w).foldl (fun y distance => y ||| (y >>> distance)) x

/-- `leadingZeros` without a branch. -/
def leadingZerosMasked (x : Word w) : Nat := w.bits - weight x.smear

/-! ## Moving bits around -/

/-- The octets of a word, least significant first. -/
def toOctets (x : Word w) : List UInt8 :=
  (List.range w.octets).map fun i => (x.raw >>> UInt64.ofNat (8 * i)).toUInt8

/-- The word whose octets are given, least significant first. -/
def ofOctets (octets : List UInt8) : Word w :=
  truncate (octets.foldr (fun octet acc => (acc <<< 8) ||| octet.toUInt64) 0)

/-- Octets in opposite order. -/
def reverseOctets (x : Word w) : Word w := ofOctets x.toOctets.reverse

/-- Bits in opposite order. -/
def reverseBits (x : Word w) : Word w := ofBits fun i => x.testBit (w.bits - 1 - i)

/-- Exchange the bits selected by `mask` with those `distance` places above. -/
def exchange (x : Word w) (distance : Nat) (mask : Word w) : Word w :=
  let t := (x ^^^ (x >>> distance)) &&& mask
  x ^^^ t ^^^ (t <<< distance)

/-- The exchanges that make up a shuffle: distance and mask, widest first. -/
def shuffleSteps : (w : Width) → List (Nat × Word w)
  | .w32 => [(8, 0x0000ff00), (4, 0x00f000f0), (2, 0x0c0c0c0c), (1, 0x22222222)]
  | .w64 => [(16, 0x00000000ffff0000), (8, 0x0000ff000000ff00), (4, 0x00f000f000f000f0),
      (2, 0x0c0c0c0c0c0c0c0c), (1, 0x2222222222222222)]

/-- Interleave the two halves of a word. -/
def shuffle (x : Word w) : Word w :=
  (shuffleSteps w).foldl (fun y step => exchange y step.1 step.2) x

/-- Gather the even bits in the low half and the odd bits in the high half. -/
def deshuffle (x : Word w) : Word w :=
  (shuffleSteps w).reverse.foldl (fun y step => exchange y step.1 step.2) x

/-! ## The negated inverse of an odd word -/

/-- One step towards the inverse of `x`. -/
def newtonStep (x inverse : Word w) : Word w := inverse * (2 - x * inverse)

/-- The word that times `x` gives `-1`, for odd `x`. -/
def negInverse (x : Word w) : Word w := -(Nat.repeat (newtonStep x) 6 x)

/-- `negInverse`, refusing an even word, which has no inverse. -/
def negInverse? (x : Word w) : Checked (Word w) := do
  require (x.isOdd) .evenOperand
  return x.negInverse

end CryptoPrimes.Word
