import CryptoPrimes.OctetArray
import CryptoPrimes.Scratch

/-!
# Octets in place

Loading and storing walk over words and octets together, as many octets at a
time as a word has.  The target is cleared first, whichever side it is, and keeps
its length.

The walk ends with the shorter side.  Octets that do not fill a word go through a
buffer of zeros on the way in; on the way out a word gives as many of its octets
as there is room for.  Every copy is between ranges of one length, and a range
beyond the end is a fault.
-/

namespace CryptoPrimes.InPlace

open Limbs

variable {w : Width}

/-- The word of the octets of a chunk, through a buffer of zeros. -/
def chunkWord (chunk : Octets) : Checked (Word w) := do
  let buffer ← (OctetArray.zeros w.octets).write 0 chunk.length chunk
  return Word.ofOctets buffer.octets

/-- Put octets into the words of `target`, from the lowest on. -/
def loadChunks : Limbs w → Octets → Checked (Limbs w)
  | target, [] => return target
  | [], _ => return []
  | _ :: target, octets => do
    let x ← chunkWord (octets.take w.octets)
    let rest ← loadChunks target (octets.drop w.octets)
    return x :: rest

/-- Load octets over `target`, which must have room for them.  The room is a
machine size, or the greatest of these if it is more. -/
def loadInto (target : Limbs w) (octets : Octets) : Checked (Limbs w) := do
  require (octets.length ≤ min (target.length * w.octets) (sizeLimit - 1)) .lengthMismatch
  loadChunks (cleared target) octets

/-- Copy the octets of words over those of `target`, from the first on. -/
def storeChunks : Octets → Limbs w → Checked Octets
  | target, [] => return target
  | [], _ => return []
  | target, x :: xs => do
    let chunk := target.take w.octets
    let source ← Octets.slice x.toOctets 0 chunk.length
    require (source.length = chunk.length) .lengthMismatch
    let rest ← storeChunks (target.drop w.octets) xs
    return source ++ rest

/-- Store the words of `a` over `target`: what does not fit is cut off, and what is
left over is zero. -/
def storeInto (target : Octets) (a : Limbs w) : Checked Octets :=
  storeChunks (target.map fun _ => 0) a

end CryptoPrimes.InPlace
