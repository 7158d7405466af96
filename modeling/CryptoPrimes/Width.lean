/-!
# Word widths

Everything in this library is stated once for both machine word widths.  A
`Width` fixes how many bits and octets one word has; the arithmetic of
`CryptoPrimes.Word` and all that is built on it take the width as an implicit
argument, so a law proved for a width `w` holds at 32 and at 64 bits.
-/

namespace CryptoPrimes

/-- Powers of natural numbers are those of the core library, whatever else is
imported. -/
@[default_instance 20000]
instance (priority := high) natPow : Pow Nat Nat := instPowNat

/-- The two machine word widths. -/
inductive Width where
  | w32
  | w64
deriving DecidableEq

namespace Width

/-- Bits in a word. -/
def bits : Width → Nat
  | w32 => 32
  | w64 => 64

/-- Octets in a word. -/
def octets : Width → Nat
  | w32 => 4
  | w64 => 8

/-- Bits in half a word. -/
def halfBits : Width → Nat
  | w32 => 16
  | w64 => 32

theorem bits_eq_octets (w : Width) : w.bits = 8 * w.octets := by
  cases w <;> rfl

theorem bits_eq_halfBits (w : Width) : w.bits = 2 * w.halfBits := by
  cases w <;> rfl

theorem bits_pos (w : Width) : 0 < w.bits := by
  cases w <;> decide

theorem octets_pos (w : Width) : 0 < w.octets := by
  cases w <;> decide

theorem bits_le (w : Width) : w.bits ≤ 64 := by
  cases w <;> decide

/-- How many words hold `count` bits. -/
def wordsForBits (w : Width) (count : Nat) : Nat :=
  (count + (w.bits - 1)) / w.bits

/-- How many words hold `count` octets. -/
def wordsForOctets (w : Width) (count : Nat) : Nat :=
  (count + (w.octets - 1)) / w.octets

end Width

end CryptoPrimes
