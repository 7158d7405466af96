import CryptoPrimes.Modular.Montgomery

/-!
# Modular powers

The ladder runs over the bits of the exponent from the top.  Each bit squares
the accumulator and multiplies by the base, and then keeps one of the two
results; the work does not depend on the bit.  Base and accumulator stay in
Montgomery form, in which `x` is held as `x * R` modulo `m`.

`powerMod` converts into that form, climbs the ladder and converts back.  The
base may be shorter than the modulus and need not lie below it.
-/

namespace CryptoPrimes.Modular

open Limbs

variable {w : Width}

/-- Scratch words of a power in Montgomery form. -/
def powerMontDepth (n : Nat) : Nat := n + montMulDepth n

/-- Scratch words of a modular power. -/
def powerModDepth (n : Nat) : Nat := 4 * n + powerMontDepth n

/-- Climb the bits of an exponent, highest first, from the accumulator `r`; also
the last square computed, which starts as `tmp`. -/
def ladder (a m : Limbs w) (m0 : Word w) :
    List Bool → Limbs w → Limbs w → Work w (Limbs w × Limbs w)
  | [], r, tmp => pure (r, tmp)
  | bit :: bits, r, _ => do
    let square ← montMul r r m m0
    let product ← montMul square a m m0
    ladder a m m0 bits (choose (Word.ofBool bit) product square) square

/-- `a` to the power `e` in Montgomery form, where `one` is the form of one. -/
def powerMont (a e m : Limbs w) (m0 : Word w) (one : Limbs w) : Work w (Limbs w) := do
  Work.withBuffer m.length fun buffer => do
    require (one.length = m.length) .lengthMismatch
    ladder a m m0 (bitList e).reverse one buffer

/-- `a` to the power `e` modulo an odd `m`, for `a` of at most the words of
`m`. -/
def powerMod (a e m : Limbs w) : Work w (Limbs w) := do
  require (a.length ≤ m.length) .lengthMismatch
  let m0 ← montConstant m
  let n := m.length
  Work.withBuffer (4 * n) fun _ => do
    let r2 := radixSquareMod m
    let base ← montMul (extend a n) r2 m m0
    let acc ← powerMont base e m m0 (radixMod m)
    let r ← montMul acc (one n) m m0
    return (r, base ++ acc ++ one n ++ r2)

end CryptoPrimes.Modular
