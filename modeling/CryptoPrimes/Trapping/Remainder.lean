import CryptoPrimes.Limbs.Division
import CryptoPrimes.Trapping.Machine

/-!
# Trapping reduction by a word

Horner's rule from the top word down, with the register of each step.  By halves
every number stays in a word, and a remainder that is moved up by half a word must
not lose a bit.  By whole words a remainder and the next word fill a double word;
what goes back to a word must fit it.

The division takes a quotient word out of the same step and puts it where the word
of the dividend was, which is read only once and before.
-/

namespace CryptoPrimes.Trapping

open Limbs

variable {w : Width}

/-- The quotient of a division. -/
def wholeQuotient (n m : Nat) : Checked Nat := do
  require (m ≠ 0) .divisionByZero
  return n / m

/-- The remainder of a division of words. -/
def wordRemainder (x m : Word w) : Checked (Word w) := do
  require (m ≠ 0) .divisionByZero
  return x % m

/-- Move a word up by half a word. -/
def halfUp (x : Word w) : Checked (Word w) := do
  require (x.toNat * 2 ^ w.halfBits < 2 ^ w.bits) .wordOverflow
  return x <<< w.halfBits

/-- Take one more word into a remainder, its high half first. -/
def takeHalves (m x r : Word w) : Checked (Word w) := do
  let r ← wordRemainder ((← halfUp r) ||| (x >>> w.halfBits)) m
  wordRemainder ((← halfUp r) ||| (x &&& Word.halfMask)) m

/-- The remainder by halves of words. -/
def modByHalves (m : Word w) : Limbs w → Checked (Word w)
  | [] => return 0
  | x :: xs => do takeHalves m x (← modByHalves m xs)

/-- The remainder by whole words, in a double word. -/
def modByWhole (m : Word w) : Limbs w → Checked Nat
  | [] => return 0
  | x :: xs => do
    let r ← modByWhole m xs
    remainder (← doubleWord w (r * 2 ^ w.bits + x.toNat)) m.toNat

/-- The remainder by a word, by halves where the modulus is at most half a word. -/
def modByWord (a : Limbs w) (m : Word w) : Checked (Word w) := do
  require (m ≠ 0) .divisionByZero
  if m ≤ Word.halfMask then modByHalves m a
  else return Word.ofNat (← singleWord w (← modByWhole m a))

/-- The words of the quotient, and the remainder in a double word. -/
def quotientWords (m : Word w) : Limbs w → Checked (Limbs w × Nat)
  | [] => return ([], 0)
  | x :: xs => do
    let (qs, r) ← quotientWords m xs
    let t ← doubleWord w (r * 2 ^ w.bits + x.toNat)
    let q ← singleWord w (← wholeQuotient t m.toNat)
    return (Word.ofNat q :: qs, ← remainder t m.toNat)

/-- Divide by a word where the dividend lies; also the remainder. -/
def divByWord (a : Limbs w) (m : Word w) : Checked (Limbs w × Word w) := do
  require (m ≠ 0) .divisionByZero
  let (q, r) ← quotientWords m a
  return (q, Word.ofNat (← singleWord w r))

end CryptoPrimes.Trapping
