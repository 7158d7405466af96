import CryptoPrimes.Limbs.Octets
import CryptoPrimes.Limbs.Shift
import CryptoPrimes.Source

/-!
# Uniform sampling

A number below `m` is drawn by rejection: read a block of as many words as `m`
has, keep the low `bitLen m` bits, and start over unless the result is in range.
All numbers of that bit length are equally likely in a block, so no number that
is accepted is favoured.

Octets are requested one word at a time.  A source that fails in the middle of a
block has still served the words before it.

Nothing makes a source serve an acceptable block, so the number of blocks is
bounded by `fuel`.  A result obtained with some fuel is the result with more.
-/

namespace CryptoPrimes

open Limbs

variable {w : Width} {σ : Type} [ByteSource σ]

/-- Draw `n` words, one request each. -/
def drawWords : Nat → σ → Option (Limbs w) × σ
  | 0, source => (some [], source)
  | n + 1, source =>
    match ByteSource.request source w.octets with
    | (none, source) => (none, source)
    | (some octets, source) =>
      let rest := drawWords n source
      (rest.1.map (Word.ofOctets octets :: ·), rest.2)

/-- Draw blocks of `n` words cut to `bits` bits until one is accepted; `none`
when the source fails. -/
def sample (accept : Limbs w → Bool) (n bits : Nat) : Nat → σ → Checked (Option (Limbs w) × σ)
  | 0, _ => .error .outOfFuel
  | fuel + 1, source =>
    match drawWords n source with
    | (none, source) => .ok (none, source)
    | (some block, source) =>
      let x := trimBits block bits
      if accept x then .ok (some x, source) else sample accept n bits fuel source

/-- A uniform number below `m`, into `room` words.  There is none below zero. -/
def sampleBelow (fuel room : Nat) (m : Limbs w) (source : σ) :
    Checked (Option (Limbs w) × σ) := do
  require (room = m.length) .lengthMismatch
  if isZero m then return (none, source)
  else sample (less · m) m.length (bitLen m) fuel source

/-- A uniform number from 1 up to `m`, into `room` words.  There is none unless
`m` exceeds one. -/
def sampleNonzeroBelow (fuel room : Nat) (m : Limbs w) (source : σ) :
    Checked (Option (Limbs w) × σ) := do
  require (room = m.length) .lengthMismatch
  if bitLen m ≤ 1 then return (none, source)
  else sample (fun x => !isZero x && less x m) m.length (bitLen m) fuel source

end CryptoPrimes
