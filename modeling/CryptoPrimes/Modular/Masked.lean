import CryptoPrimes.Limbs.Carry
import CryptoPrimes.Limbs.Shift

/-!
# Modular sums, differences and doubles

Operands are expected below the modulus.  A sum is reduced by one subtraction of
the modulus, which is undone when it was one too many: that is when it borrows
and the sum itself did not carry.  Doubling repeatedly from one gives the two
constants of Montgomery arithmetic, `2 ^ (w.bits * n)` and its square modulo an
`n`-word modulus, without any division.

For operands outside that range the operations still have the fixed result of
the word algorithm.
-/

namespace CryptoPrimes.Modular

open Limbs

variable {w : Width}

/-- Subtract `m` from a sum that left the carry `carry`, unless the sum is
already below `m`. -/
def reduceOnce (m sum : Limbs w) (carry : Bool) : Limbs w :=
  let d := subBorrow sum m false
  addIf (d.2 && !carry) d.1 m

/-- `a + b` modulo `m`. -/
def addMod (a b m : Limbs w) : Limbs w :=
  let s := addCarry a b false
  reduceOnce m s.1 s.2

/-- `a - b` modulo `m`. -/
def subMod (a b m : Limbs w) : Limbs w :=
  let d := subBorrow a b false
  addIf d.2 d.1 m

/-- `2 * a` modulo `m`. -/
def doubleMod (a m : Limbs w) : Limbs w :=
  let s := shlWithin a 1
  reduceOnce m s.1 s.2.isOdd

/-- `2 ^ (w.bits * n)` modulo `m`, where `n` is the length of `m`. -/
def radixMod (m : Limbs w) : Limbs w :=
  Nat.repeat (doubleMod · m) (w.bits * m.length) (one m.length)

/-- The square of `radixMod m`, modulo `m`. -/
def radixSquareMod (m : Limbs w) : Limbs w :=
  Nat.repeat (doubleMod · m) (w.bits * m.length) (radixMod m)

/-! ## Checked forms -/

/-- `addMod` for operands of one length. -/
def addModChecked (a b m : Limbs w) : Checked (Limbs w) := do
  require (a.length = b.length ∧ a.length = m.length) .lengthMismatch
  return addMod a b m

/-- `subMod` for operands of one length. -/
def subModChecked (a b m : Limbs w) : Checked (Limbs w) := do
  require (a.length = b.length ∧ a.length = m.length) .lengthMismatch
  return subMod a b m

/-- `doubleMod` for operands of one length. -/
def doubleModChecked (a m : Limbs w) : Checked (Limbs w) := do
  require (a.length = m.length) .lengthMismatch
  return doubleMod a m

/-- `radixMod` into a destination of `room` words. -/
def radixModTo (room : Nat) (m : Limbs w) : Checked (Limbs w) := do
  require (room = m.length) .lengthMismatch
  return radixMod m

/-- `radixSquareMod` into a destination of `room` words. -/
def radixSquareModTo (room : Nat) (m : Limbs w) : Checked (Limbs w) := do
  require (room = m.length) .lengthMismatch
  return radixSquareMod m

end CryptoPrimes.Modular
