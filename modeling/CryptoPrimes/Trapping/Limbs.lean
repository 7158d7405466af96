import CryptoPrimes.Limbs.Product
import CryptoPrimes.Limbs.Basic
import CryptoPrimes.Trapping.Machine

/-!
# Trapping arithmetic on numbers

Rows of a product, the product itself, and what is asked about a number's bits,
with the positions they read and write and the double words they compute in.
What the plain module already offers with a check of its operands' lengths is
used from there.
-/

namespace CryptoPrimes.Trapping

open Limbs

variable {w : Width}

/-! ## Rows -/

/-- `x * y + acc + carry` in a double word, which holds every product. -/
@[inline] def mulAddWord (x y acc carry : Word w) : Checked (Word w × Word w) := do
  doubleSum (← doubleSum (Word.mulAdd x y 0 0) acc) carry

/-- `c + a * x + carry`, word by word. -/
def addRow : Limbs w → Limbs w → Word w → Word w → Checked (Limbs w × Word w)
  | c :: cs, a :: as, x, carry => do
    let t ← mulAddWord a x c carry
    let rest ← addRow cs as x t.2
    return (t.1 :: rest.1, rest.2)
  | _, _, _, carry => return ([], carry)

/-- `c - a * x - borrow`, word by word.  The borrow that is handed on must fit a
word. -/
def subRow : Limbs w → Limbs w → Word w → Word w → Checked (Limbs w × Word w)
  | c :: cs, a :: as, x, borrow => do
    let t ← mulAddWord a x borrow 0
    let high ← wordSum t.2 (Word.ofBool (c < t.1))
    let rest ← subRow cs as x high
    return ((c - t.1) :: rest.1, rest.2)
  | _, _, _, borrow => return ([], borrow)

/-- `c + a * x` for numbers of one length, and the word carried out. -/
def addMulWord (c a : Limbs w) (x : Word w) : Checked (Limbs w × Word w) := do
  require (c.length = a.length) .lengthMismatch
  addRow c a x 0

/-- `c - a * x` for numbers of one length, and the word borrowed. -/
def subMulWord (c a : Limbs w) (x : Word w) : Checked (Limbs w × Word w) := do
  require (c.length = a.length) .lengthMismatch
  subRow c a x 0

/-! ## The product -/

/-- Add the rows of `a` times the given words into `c`, the first of them from
position `i` on. -/
def mulRows (a : Limbs w) : Nat → Limbs w → Limbs w → Checked (Limbs w)
  | _, c, [] => return c
  | i, c, y :: ys => do
    let last ← checkedSize (i + a.length)
    let row ← addMulWord (← slice c i last) a y
    let c ← write c i last row.1
    let c ← setWord c last row.2
    mulRows a (i + 1) c ys

/-- Product into a destination of `room` words, which it must fill exactly. -/
def mul (room : Nat) (a b : Limbs w) : Checked (Limbs w) := do
  require (room = a.length + b.length) .lengthMismatch
  mulRows a 0 (zeros room) b

/-! ## Order, lengths and bits -/

/-- The order of two numbers of any lengths. -/
def compareAny (a b : Limbs w) : Checked Ordering := do
  let n := min a.length b.length
  if !isZero (← slice a n a.length) then return .gt
  else if !isZero (← slice b n b.length) then return .lt
  else compareSame (← slice a 0 n) (← slice b 0 n)

/-- Bits up to the highest set one. -/
def bitLen (a : Limbs w) : Checked Nat :=
  match wordLen a with
  | 0 => return 0
  | n + 1 => do
    let bits ← checkedSize ((n + 1) * w.bits)
    difference bits (← wordAt a n).leadingZeros

/-- Zero bits below the lowest set bit; zero for zero. -/
def trailingZeros (a : Limbs w) : Checked Nat :=
  match a.findIdx? (· != 0) with
  | none => return 0
  | some i => do
    let below ← checkedSize (i * w.bits)
    checkedSize (below + (← wordAt a i).trailingZeros)

/-- Shift left by any distance: move whole words up, clear the words they leave,
and shift by what remains. -/
def shiftLeft (a : Limbs w) (distance : Nat) : Checked (Limbs w) := do
  let words := min (distance / w.bits) a.length
  let kept ← difference a.length words
  let b ← write a words a.length (← slice a 0 kept)
  let b ← write b 0 words (zeros words)
  return (← shlCarry b (distance % w.bits)).1

/-- Shift right by any distance: move whole words down, clear the words they
leave, and shift by what remains. -/
def shiftRight (a : Limbs w) (distance : Nat) : Checked (Limbs w) := do
  let words := min (distance / w.bits) a.length
  let kept ← difference a.length words
  let b ← write a 0 kept (← slice a words a.length)
  let b ← write b kept a.length (zeros words)
  return (← shrCarry b (distance % w.bits)).1

/-- Clear every bit at position `bits` and above. -/
def trimBits (a : Limbs w) (bits : Nat) : Checked (Limbs w) :=
  let full := bits / w.bits
  if a.length ≤ full then return a
  else do
    let x ← wordAt a full
    let a ← setWord a full (x &&& (((1 : Word w) <<< (bits % w.bits)) - 1))
    let next ← checkedSize (full + 1)
    write a next a.length (zeros (a.length - next))

end CryptoPrimes.Trapping
