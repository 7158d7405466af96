import CryptoPrimes.Trapping.Modular

/-!
# Modular arithmetic in place

Nothing is allocated: a result goes into words that the caller hands over, and
so does every intermediate number.  Those words hold whatever earlier use has
left in them.  The routines of `CryptoPrimes.Trapping` say what is computed; here
each one takes the words of its result as an argument, fills or overwrites them
step by step, and returns what they hold in the end.  Buffers from the scratch
are used in the same way and go back as they are left.

Nothing in the form of a routine keeps old words out of a result.  A buffer that
is not filled before it is read would be noticed in the result.
-/

namespace CryptoPrimes.InPlace

open Limbs CryptoPrimes.Modular Trapping

variable {w : Width}

/-! ## Copies and differences -/

/-- Copy `source` over all of `target`. -/
def store (target source : Limbs w) : Checked (Limbs w) := write target 0 target.length source

/-- `a - b` into `target`; also whether a borrow is left. -/
def sub (target a b : Limbs w) : Checked (Limbs w × Bool) := do
  let d ← Limbs.sub target.length a b
  return (← store target d.1, d.2)

/-- `a - x` into `target`. -/
def subWord (target a : Limbs w) (x : Word w) : Checked (Limbs w) := do
  let d ← subWordTo target.length a x
  store target d.1

/-! ## The constants -/

/-- `2 ^ (w.bits * n)` modulo `m`, where `n` is the length of `m`. -/
def radixMod (r m : Limbs w) : Checked (Limbs w) := do
  require (r.length = m.length) .lengthMismatch
  let count ← checkedSize (w.bits * m.length)
  iterate (doubleModChecked · m) count ((cleared r).set 0 1)

/-- The square of `radixMod`, modulo `m`. -/
def radixSquareMod (r m : Limbs w) : Checked (Limbs w) := do
  let r ← radixMod r m
  let count ← checkedSize (w.bits * m.length)
  iterate (doubleModChecked · m) count r

/-! ## The product -/

/-- The accumulator less the modulus, unless that borrows out of its top. -/
def montFinish (r m t : Limbs w) : Checked (Limbs w) := do
  let low ← slice t 0 m.length
  let (r, borrow) ← sub r low m
  assignIf (Word.ofBool borrow &&& ~~~(← wordAt t m.length)) r low

/-- The Montgomery product of `a` and `b` modulo `m`. -/
def montMul (r a b m : Limbs w) (m0 : Word w) : Work w (Limbs w) := do
  require (r.length = m.length ∧ a.length = m.length ∧ b.length = m.length) .lengthMismatch
  require (isOdd m) .evenOperand
  let room ← checkedSize (m.length + 2)
  Work.withBuffer room fun t => do
    let t ← montRows a m m0 (cleared t) b
    return (← montFinish r m t, t)

/-! ## Products and powers -/

/-- `a * b` modulo an odd `m`. -/
def mulMod (r a b m : Limbs w) : Work w (Limbs w) := do
  let m0 ← montConstant m
  Work.withBuffer m.length fun r2 =>
    Work.withBuffer m.length fun t => do
      let r2 ← radixSquareMod r2 m
      let t ← montMul t a b m m0
      let r ← montMul r t r2 m m0
      return ((r, r2), t)

/-- `a * a` modulo an odd `m`. -/
def sqrMod (r a m : Limbs w) : Work w (Limbs w) := mulMod r a a m

/-- Climb the bits of an exponent, highest first. -/
def ladder (a m : Limbs w) (m0 : Word w) :
    List Bool → Limbs w → Limbs w → Work w (Limbs w × Limbs w)
  | [], r, tmp => return (r, tmp)
  | bit :: bits, r, tmp => do
    let tmp ← montMul tmp r r m m0
    let r ← montMul r tmp a m m0
    let r ← assignIf (Word.ofBool !bit) r tmp
    ladder a m m0 bits r tmp

/-- `a` to the power `e` in Montgomery form, where `one` is the form of one. -/
def powerMont (r a e m : Limbs w) (m0 : Word w) (one : Limbs w) : Work w (Limbs w) := do
  Work.withBuffer m.length fun tmp => do
    let r ← store r one
    ladder a m m0 (bitList e).reverse r tmp

/-- `a` to the power `e` modulo an odd `m`, for `a` of at most the words of
`m`. -/
def powerMod (r a e m : Limbs w) : Work w (Limbs w) := do
  require (a.length ≤ m.length) .lengthMismatch
  let m0 ← montConstant m
  let n := m.length
  Work.withBuffer (4 * n) fun buffer => do
    let r2 ← radixSquareMod (buffer.part n 3) m
    let acc ← write (cleared (buffer.part n 1)) 0 a.length a
    let base ← montMul (buffer.part n 0) acc r2 m m0
    let one ← radixMod (buffer.part n 2) m
    let acc ← powerMont acc base e m m0 one
    let one ← setWord (cleared one) 0 1
    let r ← montMul r acc one m m0
    return (r, base ++ acc ++ one ++ r2)

end CryptoPrimes.InPlace
