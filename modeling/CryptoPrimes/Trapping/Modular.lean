import CryptoPrimes.Modular.Power
import CryptoPrimes.Trapping.Limbs

/-!
# Trapping modular arithmetic

Montgomery products work in a buffer of the modulus' length and two words more:
the accumulator, the word above it, and a word that takes the carries of that
one.  The ladder and the products of ordinary numbers are put together as in the
plain routines, from trapping parts.
-/

namespace CryptoPrimes.Trapping

open Limbs CryptoPrimes.Modular

variable {w : Width}

/-! ## The constants -/

/-- Repeat a step so many times. -/
def iterate {α : Type} (step : α → Checked α) : Nat → α → Checked α
  | 0, a => return a
  | count + 1, a => do step (← iterate step count a)

/-- `2 ^ (w.bits * n)` modulo `m`, where `n` is the length of `m`. -/
def radixMod (m : Limbs w) : Checked (Limbs w) := do
  let count ← checkedSize (w.bits * m.length)
  iterate (doubleModChecked · m) count (one m.length)

/-- The square of `radixMod m`, modulo `m`. -/
def radixSquareMod (m : Limbs w) : Checked (Limbs w) := do
  let count ← checkedSize (w.bits * m.length)
  iterate (doubleModChecked · m) count (← radixMod m)

/-! ## The product -/

/-- Add a row `a * y` to the lowest words of `t`, as many as `a` has, and its
carry to the word above them; also whether that word carries. -/
def addToBuffer (t a : Limbs w) (y : Word w) : Checked (Limbs w × Bool) := do
  let row ← addMulWord (← slice t 0 a.length) a y
  let t ← write t 0 a.length row.1
  let s := Word.addCarry (← wordAt t a.length) row.2 false
  return (← setWord t a.length s.1, s.2)

/-- Drop the lowest word, which must be zero, and move the others down; the word
at position `last`, the highest one, becomes zero. -/
def moveDown (t : Limbs w) (last : Nat) : Checked (Limbs w) := do
  require ((← wordAt t 0) = 0) .brokenInvariant
  let t ← write t 0 last (← slice t 1 t.length)
  setWord t last 0

/-- One row of a Montgomery product. -/
def montRow (a m : Limbs w) (m0 : Word w) (t : Limbs w) (y : Word w) : Checked (Limbs w) := do
  let last ← checkedSize (m.length + 1)
  let (t, carry) ← addToBuffer t a y
  let t ← setWord t last (Word.ofBool carry)
  let (t, carry) ← addToBuffer t m ((← wordAt t 0) * m0)
  let t ← setWord t last (← wordSum (← wordAt t last) (Word.ofBool carry))
  moveDown t last

/-- The rows for all words of the second factor. -/
def montRows (a m : Limbs w) (m0 : Word w) : Limbs w → Limbs w → Checked (Limbs w)
  | t, [] => return t
  | t, y :: ys => do montRows a m m0 (← montRow a m m0 t y) ys

/-- The accumulator less the modulus, unless that borrows out of its top. -/
def montFinish (m t : Limbs w) : Checked (Limbs w) := do
  let low ← slice t 0 m.length
  let d ← sub m.length low m
  assignIf (Word.ofBool d.2 &&& ~~~(← wordAt t m.length)) d.1 low

/-- The Montgomery product of `a` and `b` modulo `m`. -/
def montMul (a b m : Limbs w) (m0 : Word w) : Work w (Limbs w) := do
  require (a.length = m.length ∧ b.length = m.length) .lengthMismatch
  require (isOdd m) .evenOperand
  let room ← checkedSize (m.length + 2)
  Work.withBuffer room fun buffer => do
    let t ← montRows a m m0 (cleared buffer) b
    return (← montFinish m t, t)

/-! ## Products and powers -/

/-- `a * b` modulo an odd `m`. -/
def mulMod (a b m : Limbs w) : Work w (Limbs w) := do
  let m0 ← montConstant m
  Work.withBuffer m.length fun _ =>
    Work.withBuffer m.length fun _ => do
      let r2 ← radixSquareMod m
      let t ← montMul a b m m0
      let r ← montMul t r2 m m0
      return ((r, r2), t)

/-- `a * a` modulo an odd `m`. -/
def sqrMod (a m : Limbs w) : Work w (Limbs w) := mulMod a a m

/-- Climb the bits of an exponent, highest first. -/
def ladder (a m : Limbs w) (m0 : Word w) :
    List Bool → Limbs w → Limbs w → Work w (Limbs w × Limbs w)
  | [], r, tmp => return (r, tmp)
  | bit :: bits, r, _ => do
    let square ← montMul r r m m0
    let product ← montMul square a m m0
    let r ← assignIf (Word.ofBool !bit) product square
    ladder a m m0 bits r square

/-- `a` to the power `e` in Montgomery form, where `one` is the form of one. -/
def powerMont (a e m : Limbs w) (m0 : Word w) (one : Limbs w) : Work w (Limbs w) := do
  Work.withBuffer m.length fun buffer => do
    require (one.length = m.length) .lengthMismatch
    ladder a m m0 (bitList e).reverse one buffer

/-- `a` to the power `e` modulo an odd `m`, for `a` of at most the words of
`m`. -/
def powerMod (a e m : Limbs w) : Work w (Limbs w) := do
  require (a.length ≤ m.length) .lengthMismatch
  let m0 ← montConstant m
  let n := m.length
  Work.withBuffer (4 * n) fun _ => do
    let r2 ← radixSquareMod m
    let acc ← write (zeros n) 0 a.length a
    let base ← montMul acc r2 m m0
    let acc ← powerMont base e m m0 (← radixMod m)
    let unit ← setWord (zeros n) 0 1
    let r ← montMul acc unit m m0
    return (r, base ++ acc ++ unit ++ r2)

end CryptoPrimes.Trapping
