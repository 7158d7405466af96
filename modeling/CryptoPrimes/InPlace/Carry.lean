import CryptoPrimes.Scratch
import CryptoPrimes.Trapping.Limbs

/-!
# Carries in place

Sums, differences and products with a word are one walk over the words of a target
with different steps (`carryOver`): a step makes a new word out of the old one and
an item of the other side, and hands a carry on.  The other side holds the operands
of a sum in pairs, or only one of them where the target is the other itself.

A comparison with a sum makes no words.  It walks in the same way, gathers the bits
in which the sum is different, and looks at them only in the end, together with the
carry (`gatherOver`).

For a square the words of the result are cleared, take the rows of the products of
different words, are doubled by a shift, and take the squares on the diagonal.  A row
lies two positions further up than the row before it and is one word shorter, and the
word it hands out goes into a word that no row has reached yet.
-/

namespace CryptoPrimes.InPlace

open Limbs Trapping

variable {w : Width} {β γ : Type}

/-! ## The walk -/

/-- Give each word of a target a new value, the lowest first.  Words beyond the last
item stay as they are. -/
def carryOver (step : Word w → β → γ → Checked (Word w × γ)) :
    Limbs w → List β → γ → Checked (Limbs w × γ)
  | x :: target, item :: items, carry => do
    let s ← step x item carry
    let rest ← carryOver step target items s.2
    return (s.1 :: rest.1, rest.2)
  | target, _, carry => return (target, carry)

/-- `x + carry`, and what is carried out. -/
def sumStep (x carry : Word w) : Word w × Word w := (x + carry, Word.ofBool (x + carry < x))

/-- `x - borrow`, and what is borrowed. -/
def differenceStep (x borrow : Word w) : Word w × Word w := (x - borrow, Word.ofBool (x < borrow))

/-! ## Two numbers -/

/-- `a + b` into `target`, with the carry out of the top word. -/
def addInto (target a b : Limbs w) : Checked (Limbs w × Bool) := do
  require (target.length = a.length ∧ a.length = b.length) .lengthMismatch
  carryOver (fun _ pair carry => .ok (Word.addCarry pair.1 pair.2 carry)) target (a.zip b) false

/-- `a + b` over the words of `a`, with the carry out of the top word. -/
def addAssign (a b : Limbs w) : Checked (Limbs w × Bool) := do
  require (a.length = b.length) .lengthMismatch
  carryOver (fun x y carry => .ok (Word.addCarry x y carry)) a b false

/-- `a - b` into `target`, with the borrow out of the top word. -/
def subInto (target a b : Limbs w) : Checked (Limbs w × Bool) := do
  require (target.length = a.length ∧ a.length = b.length) .lengthMismatch
  carryOver (fun _ pair borrow => .ok (Word.subBorrow pair.1 pair.2 borrow)) target (a.zip b)
    false

/-- `a - b` over the words of `a`, with the borrow out of the top word. -/
def subAssign (a b : Limbs w) : Checked (Limbs w × Bool) := do
  require (a.length = b.length) .lengthMismatch
  carryOver (fun x y borrow => .ok (Word.subBorrow x y borrow)) a b false

/-! ## A number and a word -/

/-- `a + x` into `target`, with the word carried out of the top. -/
def addWordInto (target a : Limbs w) (x : Word w) : Checked (Limbs w × Word w) := do
  require (target.length = a.length) .lengthMismatch
  carryOver (fun _ y carry => .ok (sumStep y carry)) target a x

/-- `a + x` over the words of `a`, with the word carried out of the top.  The other
side has nothing to give but the number of steps. -/
def addWordAssign (a : Limbs w) (x : Word w) : Checked (Limbs w × Word w) :=
  carryOver (fun y _ carry => .ok (sumStep y carry)) a a x

/-- `a - x` into `target`, with the word borrowed past the top. -/
def subWordInto (target a : Limbs w) (x : Word w) : Checked (Limbs w × Word w) := do
  require (target.length = a.length) .lengthMismatch
  carryOver (fun _ y borrow => .ok (differenceStep y borrow)) target a x

/-- `a - x` over the words of `a`, with the word borrowed past the top. -/
def subWordAssign (a : Limbs w) (x : Word w) : Checked (Limbs w × Word w) :=
  carryOver (fun y _ borrow => .ok (differenceStep y borrow)) a a x

/-- `a * x` into `target`, with the high word. -/
def mulWordInto (target a : Limbs w) (x : Word w) : Checked (Limbs w × Word w) := do
  require (target.length = a.length) .lengthMismatch
  carryOver (fun _ y carry => mulAddWord y x 0 carry) target a 0

/-! ## Comparison with a sum -/

/-- Gather the bits in which what the steps make is different from `c`; also the
carry that is left. -/
def gatherOver (step : β → γ → Word w × γ) : Limbs w → List β → Word w → γ → Word w × γ
  | z :: c, item :: items, difference, carry =>
    let s := step item carry
    gatherOver step c items (difference ||| (s.1 ^^^ z)) s.2
  | _, _, difference, carry => (difference, carry)

/-- Whether `a + b = c`, with no carry out of the top word. -/
def isSum (c a b : Limbs w) : Checked Bool := do
  require (c.length = a.length ∧ a.length = b.length) .lengthMismatch
  let (difference, carry) :=
    gatherOver (fun pair carry => Word.addCarry pair.1 pair.2 carry) c (a.zip b) 0 false
  return difference ||| Word.ofBool carry == 0

/-- Whether `a + x = c`, with nothing carried out of the top word. -/
def isSumWord (c a : Limbs w) (x : Word w) : Checked Bool := do
  require (c.length = a.length) .lengthMismatch
  let (difference, carry) := gatherOver sumStep c a 0 x
  return difference ||| carry == 0

/-! ## The square -/

/-- Add the products of each word with the words above it, those of the first
word from position `2 * i + 1` on. -/
def crossInto : Nat → Limbs w → Limbs w → Checked (Limbs w)
  | _, [], c => return c
  | i, x :: xs, c => do
    let first ← checkedSize (2 * i + 1)
    let last ← checkedSize (first + xs.length)
    let row ← Trapping.addMulWord (← slice c first last) xs x
    let c ← write c first last row.1
    let c ← setWord c last row.2
    crossInto (i + 1) xs c

/-- Add the square of each word at its place; also the carry that is left. -/
def diagonalInto : Limbs w → Limbs w → Bool → Checked (Limbs w × Bool)
  | c, [], carry => return (c, carry)
  | low :: high :: cs, x :: xs, carry => do
    let p ← mulAddWord x x 0 0
    let s := Word.addCarry low p.1 carry
    let t := Word.addCarry high p.2 s.2
    let rest ← diagonalInto cs xs t.2
    return (s.1 :: t.1 :: rest.1, rest.2)
  | _, _ :: _, _ => .error .outOfRange

/-- The square of `a` into `target`, which it must fill exactly. -/
def square (target a : Limbs w) : Checked (Limbs w) := do
  require (target.length = 2 * a.length) .lengthMismatch
  let c ← crossInto 0 a (cleared target)
  let doubled ← shlCarry c 1
  let (c, carry) ← diagonalInto doubled.1 a false
  require (carry = false) .brokenInvariant
  return c

end CryptoPrimes.InPlace
