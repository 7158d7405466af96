import CryptoPrimes.InPlace.Modular

/-!
# Corrections under a mask

A sum modulo `m` is at most one modulus too large, and a difference that borrows
is one modulus too small.  Which of the two ways is taken must not show, so the
modulus comes off every sum, and what goes back on is the modulus under a mask:
all of it or nothing.  The mask is widened from one bit, the borrow of the last
subtraction, and of a sum only where the sum itself left no carry.

The routines of `CryptoPrimes.Modular` choose with a branch and say what comes
out; these walk the words of their target in one direction, whatever the words
are.
-/

namespace CryptoPrimes.InPlace

open Limbs CryptoPrimes.Modular Trapping

variable {w : Width}

/-- `a + b` into `target`; also whether a carry is left. -/
def add (target a b : Limbs w) : Checked (Limbs w × Bool) := do
  let s ← Limbs.add target.length a b
  return (← store target s.1, s.2)

/-- Add the bits of `m` under a mask; also the carry out of the top word. -/
def addMasked (mask : Word w) : Limbs w → Limbs w → Bool → Limbs w × Bool
  | x :: xs, y :: ys, carry =>
    let s := Word.addCarry x (y &&& mask) carry
    let rest := addMasked mask xs ys s.2
    (s.1 :: rest.1, rest.2)
  | xs, _, carry => (xs, carry)

/-- Subtract `m` from a sum that left the word `carry`, and add it again under a
mask: when the subtraction borrows and the sum did not carry. -/
def reduceMasked (a m : Limbs w) (carry : Word w) : Checked (Limbs w) := do
  let (a, borrow) ← sub a a m
  return (addMasked (Word.ofBool borrow &&& ~~~carry).maskFromBit a m false).1

/-- `a + b` modulo `m` into `target`. -/
def addMod (target a b m : Limbs w) : Checked (Limbs w) := do
  let (c, carry) ← add target a b
  reduceMasked c m (Word.ofBool carry)

/-- `a + b` modulo `m` over the words of `a`. -/
def addModAssign (a b m : Limbs w) : Checked (Limbs w) := addMod a a b m

/-- `a - b` modulo `m` into `target`. -/
def subMod (target a b m : Limbs w) : Checked (Limbs w) := do
  let (c, borrow) ← sub target a b
  return (addMasked (Word.ofBool borrow).maskFromBit c m false).1

/-- `2 * a` modulo `m` over the words of `a`. -/
def doubleMod (a m : Limbs w) : Checked (Limbs w) := do
  let (a, carry) ← shlCarry a 1
  reduceMasked a m carry

end CryptoPrimes.InPlace
