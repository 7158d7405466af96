import CryptoPrimes.Limbs.Product
import CryptoPrimes.Limbs.Basic
import CryptoPrimes.Modular.Masked
import CryptoPrimes.Scratch
import CryptoPrimes.Word.Bits

/-!
# Montgomery multiplication

For an odd modulus `m` of `n` words and `R = 2 ^ (w.bits * n)`, the Montgomery
product of `a` and `b` is `a * b / R` modulo `m`.  Each word of `b` adds one row
`a * y` to an accumulator, then one row `m * u` with `u` chosen so that the
lowest accumulator word becomes zero, and the accumulator moves down a word.
The choice takes `m0`, the negated inverse of the lowest word of `m`; a wrong
`m0` is noticed as a lowest word that is not zero.

The accumulator has `n` words and one above them, which stays 0 or 1 when `a`
is below `m`; one subtraction of `m` ends the product.

`mulMod` moves the product of two ordinary numbers back by one more Montgomery
product with `R ^ 2`.
-/

namespace CryptoPrimes.Modular

open Limbs

variable {w : Width}

/-! ## Scratch sizes -/

/-- Scratch words of a Montgomery product modulo `n` words. -/
def montMulDepth (n : Nat) : Nat := n + 2

/-- Scratch words of a modular product. -/
def mulModDepth (n : Nat) : Nat := 2 * n + montMulDepth n

/-! ## The product -/

/-- The accumulator of a Montgomery product: as many words as the modulus has,
and the word above them. -/
structure Accumulator (w : Width) where
  low : Limbs w
  top : Word w

/-- Add the row `a * y`, clear the lowest word by a multiple of the modulus, and
move down one word. -/
def montStep (a m : Limbs w) (m0 : Word w) (t : Accumulator w) (y : Word w) :
    Checked (Accumulator w) := do
  let row := mulAdd t.low a y 0
  let s := Word.addCarry t.top row.2 false
  let u := row.1.headD 0 * m0
  let cleared := mulAdd row.1 m u 0
  let s' := Word.addCarry s.1 cleared.2 false
  require (cleared.1.headD 0 = 0) .brokenInvariant
  return ⟨cleared.1.tail ++ [s'.1], Word.ofBool s.2 + Word.ofBool s'.2⟩

/-- The rows for all words of the second factor. -/
def montRows (a m : Limbs w) (m0 : Word w) : Accumulator w → Limbs w → Checked (Accumulator w)
  | t, [] => .ok t
  | t, y :: ys => do
    let t' ← montStep a m m0 t y
    montRows a m m0 t' ys

/-- The accumulator less the modulus, unless that borrows out of its top. -/
def montFinish (m : Limbs w) (t : Accumulator w) : Limbs w :=
  let d := subBorrow t.low m false
  choose (Word.ofBool d.2 &&& ~~~t.top) t.low d.1

/-- The Montgomery product of `a` and `b` modulo `m`, where `m0` is the negated
inverse of the lowest word of `m`. -/
def montMul (a b m : Limbs w) (m0 : Word w) : Work w (Limbs w) := do
  require (a.length = m.length ∧ b.length = m.length) .lengthMismatch
  require (isOdd m) .evenOperand
  Work.withBuffer (montMulDepth m.length) fun buffer => do
    let t ← montRows a m m0 ⟨cleared (buffer.take m.length), 0⟩ b
    return (montFinish m t, t.low ++ [t.top, 0])

/-- The constant `m0` of a modulus, which must be odd. -/
def montConstant (m : Limbs w) : Checked (Word w) := do
  require (m ≠ []) .outOfRange
  (m.headD 0).negInverse?

/-! ## Products of ordinary numbers -/

/-- `a * b` modulo an odd `m`. -/
def mulMod (a b m : Limbs w) : Work w (Limbs w) := do
  let m0 ← montConstant m
  Work.withBuffer m.length fun _ =>
    Work.withBuffer m.length fun _ => do
      let r2 := radixSquareMod m
      let t ← montMul a b m m0
      let r ← montMul t r2 m m0
      return ((r, r2), t)

/-- `a * a` modulo an odd `m`. -/
def sqrMod (a m : Limbs w) : Work w (Limbs w) := mulMod a a m

end CryptoPrimes.Modular
