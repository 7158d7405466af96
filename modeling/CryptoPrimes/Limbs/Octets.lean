import CryptoPrimes.Limbs.Basic
import CryptoPrimes.Word.Bits

/-!
# Octet strings

Numbers travel as octet strings, least significant octet first.  Loading pads
with zero words on top; storing cuts off, or pads with zero octets, at the
length of the destination.  An octet string therefore denotes the same number at
both word widths.
-/

namespace CryptoPrimes

/-- Octet strings. -/
abbrev Octets := List UInt8

namespace Octets

/-- The digit of a value below sixteen. -/
def hexDigit (n : Nat) : Char :=
  if n < 10 then Char.ofNat (48 + n) else Char.ofNat (87 + n)

/-- Two lower case hexadecimal digits for each octet. -/
def hex (octets : Octets) : String :=
  String.ofList (octets.flatMap fun octet => [hexDigit (octet.toNat / 16), hexDigit (octet.toNat % 16)])

/-- The number an octet string stands for, least significant octet first. -/
def val : Octets → Nat
  | [] => 0
  | octet :: rest => octet.toNat + 256 * val rest

/-- The low `count` octets of a number, least significant first. -/
def ofNat : Nat → Nat → Octets
  | 0, _ => []
  | count + 1, n => UInt8.ofNat n :: ofNat count (n / 256)

@[simp] theorem length_ofNat (count n : Nat) : (ofNat count n).length = count := by
  induction count generalizing n with
  | zero => rfl
  | succ count ih => rw [ofNat, List.length_cons, ih]

/-- Equality of octet strings that looks at every octet of strings of one
length; lengths are no secret. -/
def sameMasked (a b : Octets) : Bool :=
  a.length == b.length && (List.zipWith (· ^^^ ·) a b).foldl (· ||| ·) 0 == 0

end Octets

namespace Limbs

variable {w : Width}

/-- `n` words from an octet string; octets beyond its end are zero. -/
def ofOctets : Nat → Octets → Limbs w
  | 0, _ => []
  | n + 1, octets => Word.ofOctets (octets.take w.octets) :: ofOctets n (octets.drop w.octets)

/-- Load an octet string into `n` words, which must have room for it. -/
def load (n : Nat) (octets : Octets) : Checked (Limbs w) := do
  require (octets.length ≤ n * w.octets) .lengthMismatch
  return ofOctets n octets

/-- All octets of a number. -/
def toOctets (a : Limbs w) : Octets := a.flatMap Word.toOctets

/-- The low `count` octets of a number. -/
def store (count : Nat) (a : Limbs w) : Octets :=
  let octets := toOctets a
  octets.take count ++ List.replicate (count - octets.length) 0

end Limbs

end CryptoPrimes
