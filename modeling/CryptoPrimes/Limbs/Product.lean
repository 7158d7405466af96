import CryptoPrimes.Limbs.Carry
import CryptoPrimes.Limbs.Shift

/-!
# Products

A row multiplies a number by one word and adds it to, or subtracts it from, an
accumulator of the same length; what does not fit is the outgoing word.  The
schoolbook product is a cascade of rows: after each row the lowest word of the
accumulator is final and leaves it, and the outgoing word enters at the top.

The square does each cross product once, doubles the sum by a shift, and adds
the squares of the words on the diagonal.  A square of `n` words fits in
`2 * n`, so the diagonal hands no carry out of the top.
-/

namespace CryptoPrimes.Limbs

variable {w : Width}

/-! ## Rows -/

/-- `c + a * x + carry`, word by word, and the word carried out of the top. -/
def mulAdd : Limbs w → Limbs w → Word w → Word w → Limbs w × Word w
  | c :: cs, a :: as, x, carry =>
    let t := Word.mulAdd a x c carry
    let rest := mulAdd cs as x t.2
    (t.1 :: rest.1, rest.2)
  | _, _, _, carry => ([], carry)

/-- `c - a * x - borrow`, word by word, and the word borrowed past the top. -/
def mulSub : Limbs w → Limbs w → Word w → Word w → Limbs w × Word w
  | c :: cs, a :: as, x, borrow =>
    let t := Word.mulAdd a x borrow 0
    let rest := mulSub cs as x (t.2 + Word.ofBool (c < t.1))
    ((c - t.1) :: rest.1, rest.2)
  | _, _, _, borrow => ([], borrow)

/-- `a * x` into a destination of `room` words, and the high word. -/
def mulWordTo (room : Nat) (a : Limbs w) (x : Word w) : Checked (Limbs w × Word w) := do
  require (room = a.length) .lengthMismatch
  return mulAdd (zeros a.length) a x 0

/-- `c + a * x` for numbers of one length, and the word carried out. -/
def addMulWord (c a : Limbs w) (x : Word w) : Checked (Limbs w × Word w) := do
  require (c.length = a.length) .lengthMismatch
  return mulAdd c a x 0

/-- `c - a * x` for numbers of one length, and the word borrowed. -/
def subMulWord (c a : Limbs w) (x : Word w) : Checked (Limbs w × Word w) := do
  require (c.length = a.length) .lengthMismatch
  return mulSub c a x 0

/-! ## Schoolbook product -/

/-- The rows of `a` times each word of the second operand, on top of an
accumulator as long as `a`. -/
def mulRows (a : Limbs w) : Limbs w → Limbs w → Limbs w
  | acc, [] => acc
  | acc, y :: ys =>
    let row := mulAdd acc a y 0
    let acc' := row.1 ++ [row.2]
    acc'.headD 0 :: mulRows a acc'.tail ys

/-- The product of two numbers, in as many words as both have together. -/
def mul (a b : Limbs w) : Limbs w := mulRows a (zeros a.length) b

/-- Product into a destination of `room` words, which it must fill exactly. -/
def mulTo (room : Nat) (a b : Limbs w) : Checked (Limbs w) := do
  require (room = a.length + b.length) .lengthMismatch
  return mul a b

/-! ## Square -/

/-- Products of each word with the words above it.  A step fixes two words: the
accumulator starts one word above the place of the square on the diagonal. -/
def crossRows : Limbs w → Limbs w → Limbs w
  | _, [] => []
  | acc, x :: xs =>
    let row := mulAdd acc xs x 0
    let acc' := row.1 ++ [row.2]
    acc'.take 2 ++ crossRows (acc'.drop 2) xs

/-- The sum of all products of two different words of `a`, in twice its length. -/
def crossProducts : Limbs w → Limbs w
  | [] => []
  | x :: xs => 0 :: crossRows (zeros xs.length) (x :: xs)

/-- Add the square of each word of the second operand at its place, and hand on
a carry. -/
def addDiagonal : Limbs w → Limbs w → Bool → Limbs w × Bool
  | low :: high :: cs, x :: xs, carry =>
    let p := Word.mulAdd x x 0 0
    let s := Word.addCarry low p.1 carry
    let t := Word.addCarry high p.2 s.2
    let rest := addDiagonal cs xs t.2
    (s.1 :: t.1 :: rest.1, rest.2)
  | _, _, carry => ([], carry)

/-- The square of a number, in twice its words. -/
def square (a : Limbs w) : Limbs w × Bool :=
  addDiagonal (shlWithin (crossProducts a) 1).1 a false

/-- Square into a destination of `room` words, which it must fill exactly; the
diagonal must not carry out of the top. -/
def squareTo (room : Nat) (a : Limbs w) : Checked (Limbs w) := do
  require (room = 2 * a.length) .lengthMismatch
  let s := square a
  require (s.2 = false) .brokenInvariant
  return s.1

end CryptoPrimes.Limbs
