import CryptoPrimes.Limbs.Division
import CryptoPrimes.Trapping.Limbs

/-!
# Trapping long division

The dividend and the window that moves down it lie in one buffer `u`, one word
longer than the dividend: step `j` reads and writes the words from position `j`
on, as many as the divisor has and one more.  A quotient word goes to position
`j` of the quotient, if a quotient is wanted at all; one that has no place there
must be zero.
-/

namespace CryptoPrimes.Trapping

open Limbs

variable {w : Width}

/-! ## One quotient word -/

/-- Whether the estimate `q`, with remainder `r`, is too large for the divisor word
`next` and the window word `low`.  The product is formed only if `q` fits a
word. -/
def tooLarge (w : Width) (next low q r : Nat) : Checked Bool :=
  if 2 ^ w.bits ≤ q then return true
  else do
    let product ← doubleWord w (q * next)
    let left ← doubleWord w (r * 2 ^ w.bits + low)
    return left < product

/-- Correct a quotient estimate with its remainder, for a divisor with the top
words `top` and `next`. -/
def refineDigit (w : Width) (top next low : Nat) : Nat → Nat → Checked Nat
  | 0, _ => return 0
  | q + 1, r => do
    if ← tooLarge w next low (q + 1) r then
      let r ← doubleWord w (r + top)
      if 2 ^ w.bits ≤ r then return q else refineDigit w top next low q r
    else return q + 1

/-- The estimated quotient word of a window, whose top three words are given,
by a divisor, whose top two words are given. -/
def estimateDigit (u2 u1 u0 v1 v0 : Word w) : Checked (Word w) := do
  require (v1.toNat ≠ 0) .divisionByZero
  let n ← doubleWord w (u2.toNat * 2 ^ w.bits + u1.toNat)
  let q ← refineDigit w v1.toNat v0.toNat u0.toNat (n / v1.toNat) (n % v1.toNat)
  return Word.ofNat q

/-- The quotient word at position `j`, and the buffer without its multiple of the
divisor `v`. -/
def digitAt (v : Limbs w) (j : Nat) (u : Limbs w) : Checked (Word w × Limbs w) := do
  let top ← checkedSize (j + v.length)
  let u2 ← wordAt u top
  let q ← estimateDigit u2 (← wordAt u (← difference top 1)) (← wordAt u (← difference top 2))
    (← wordAt v (← difference v.length 1)) (← wordAt v (← difference v.length 2))
  let row ← subMulWord (← slice u j top) v q
  let u ← write u j top row.1
  let u ← setWord u top (u2 - row.2)
  if u2 < row.2 then
    let q ← wordDifference q 1
    let sum ← add v.length (← slice u j top) v
    let u ← write u j top sum.1
    let u ← setWord u top ((← wordAt u top) + Word.ofBool sum.2)
    return (q, u)
  else return (q, u)

/-- Put a quotient word in its place. -/
def storeDigit (quotient : Option (Limbs w)) (j : Nat) (digit : Word w) :
    Checked (Option (Limbs w)) :=
  match quotient with
  | none => return none
  | some q =>
    if j < q.length then return some (q.set j digit)
    else do
      require (digit = 0) .outOfRange
      return some q

/-- The quotient words below position `j`, from the top down. -/
def digitsBelow (v : Limbs w) : Nat → Limbs w → Option (Limbs w) →
    Checked (Limbs w × Option (Limbs w))
  | 0, u, quotient => return (u, quotient)
  | j + 1, u, quotient => do
    let (digit, u) ← digitAt v j u
    digitsBelow v j u (← storeDigit quotient j digit)

/-! ## Division with remainder -/

/-- Divide `a`, which is not below `b`, by a divisor of at least two significant
words, through the scratch. -/
def divideLong (quotient : Option (Limbs w)) (rRoom : Nat) (a b : Limbs w) :
    Work w (Option (Limbs w) × Limbs w) := do
  let na := wordLen a
  let nb := wordLen b
  let room ← checkedSize (na + 1)
  Work.withBuffer room fun u =>
    Work.withBuffer nb fun v => do
      let shift := (← wordAt b (← difference nb 1)).leadingZeros
      let v ← write v 0 nb (← slice b 0 nb)
      let v := (← shlCarry v shift).1
      let u ← write u 0 na (← slice a 0 na)
      let shifted ← shlCarry (← slice u 0 na) shift
      let u ← write u 0 na shifted.1
      let u ← setWord u na shifted.2
      let steps ← checkedSize ((← difference na nb) + 1)
      let (u, quotient) ← digitsBelow v steps u quotient
      let rem ← shrCarry (← slice u 0 nb) shift
      let r ← write (zeros rRoom) 0 nb rem.1
      return (((quotient, r), u), v)

/-- Divide by the single word `x`. -/
def divideWord (quotient : Option (Limbs w)) (rRoom : Nat) (a : Limbs w) (x : Word w) :
    Checked (Option (Limbs w) × Limbs w) := do
  let part ← slice a 0 (wordLen a)
  match quotient with
  | none =>
    let r ← setWord (zeros rRoom) 0 (← modWord part x)
    return (none, r)
  | some q =>
    let d ← divWordChecked part x
    let q ← write q 0 (wordLen a) d.1
    let r ← setWord (zeros rRoom) 0 d.2
    return (some q, r)

/-- Quotient, if one is wanted, and remainder of `rRoom` words, as many as the
divisor has. -/
def divide (quotient : Option (Limbs w)) (rRoom : Nat) (a b : Limbs w) :
    Work w (Option (Limbs w) × Limbs w) := do
  require (rRoom = b.length) .lengthMismatch
  require (wordLen b ≠ 0) .divisionByZero
  if (← compareAny a b).isLT then
    let r ← write (zeros rRoom) 0 (wordLen a) (← slice a 0 (wordLen a))
    return (quotient, r)
  else if wordLen b = 1 then
    divideWord quotient rRoom a (← wordAt b 0)
  else divideLong quotient rRoom a b

/-- Quotient of `qRoom` words and remainder of `rRoom` words. -/
def divRem (qRoom rRoom : Nat) (a b : Limbs w) : Work w (Limbs w × Limbs w) := do
  let d ← divide (some (zeros qRoom)) rRoom a b
  return (d.1.getD [], d.2)

/-- Remainder of `rRoom` words, as many as the modulus has. -/
def modReduce (rRoom : Nat) (a m : Limbs w) : Work w (Limbs w) := do
  let d ← divide none rRoom a m
  return d.2

end CryptoPrimes.Trapping
