import CryptoPrimes.Limbs.Basic

/-!
# Operations that trap

The operators of `CryptoPrimes.Word` wrap around, positions in a sequence of
words are found by taking and dropping, and sizes are natural numbers.  None of
these can fail.  A machine that traps stops instead: at a sum that does not fit
its word, a size below zero or beyond 64 bits, a division by zero, an index or a
range beyond the end, a copy between ranges of different lengths.

This module has those operations with their faults.  The routines below it use
nothing else to compute, so a routine that ends without a fault has run into
none of these conditions.
-/

namespace CryptoPrimes.Trapping

open Limbs

variable {w : Width}

/-! ## Sizes and words -/

/-- The difference of two sizes. -/
def difference (m n : Nat) : Checked Nat := do
  require (n ≤ m) .sizeOverflow
  return m - n

/-- The sum of two words. -/
@[inline] def wordSum (x y : Word w) : Checked (Word w) := do
  let s := Word.addCarry x y false
  require (s.2 = false) .wordOverflow
  return s.1

/-- The difference of two words. -/
def wordDifference (x y : Word w) : Checked (Word w) := do
  let d := Word.subBorrow x y false
  require (d.2 = false) .wordOverflow
  return d.1

/-- The sum of a double word, given as its low and its high word, and a word. -/
@[inline] def doubleSum (d : Word w × Word w) (x : Word w) : Checked (Word w × Word w) := do
  let s := Word.addCarry d.1 x false
  let high ← wordSum d.2 (Word.ofBool s.2)
  return (s.1, high)

/-- A number computed in one word. -/
def singleWord (w : Width) (n : Nat) : Checked Nat := do
  require (n < 2 ^ w.bits) .wordOverflow
  return n

/-- A number computed in a double word. -/
def doubleWord (w : Width) (n : Nat) : Checked Nat := do
  require (n < 2 ^ w.bits * 2 ^ w.bits) .wordOverflow
  return n

/-- The remainder of a division. -/
def remainder (n m : Nat) : Checked Nat := do
  require (m ≠ 0) .divisionByZero
  return n % m

/-! ## Sequences of words -/

/-- The word at position `i`. -/
def wordAt (a : Limbs w) (i : Nat) : Checked (Word w) :=
  match a[i]? with
  | some x => .ok x
  | none => .error .outOfRange

/-- Replace the word at position `i`. -/
def setWord (a : Limbs w) (i : Nat) (x : Word w) : Checked (Limbs w) := do
  require (i < a.length) .outOfRange
  return a.set i x

/-- The words from position `first` up to position `last`. -/
def slice (a : Limbs w) (first last : Nat) : Checked (Limbs w) := do
  require (first ≤ last ∧ last ≤ a.length) .outOfRange
  return (a.take last).drop first

/-- Copy `source` over the words from position `first` up to position `last`. -/
def write (a : Limbs w) (first last : Nat) (source : Limbs w) : Checked (Limbs w) := do
  require (first ≤ last ∧ last ≤ a.length) .outOfRange
  require (source.length = last - first) .lengthMismatch
  return a.take first ++ source ++ a.drop last

end CryptoPrimes.Trapping
