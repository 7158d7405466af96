import CryptoPrimes.Modular.Power
import CryptoPrimes.Prime.SingleWord
import CryptoPrimes.Sample

/-!
# The strong test with drawn witnesses

For an odd `a` of at least two significant words, write `a - 1 = 2 ^ s * d` with
`d` odd.  A round draws a witness uniformly from 2 up to `a - 2` and passes if
the witness to the power `d` is 1, or one of its first `s` repeated squares is
`-1`, modulo `a`.  A prime passes every round.

Powers stay in Montgomery form for the whole test; one and minus one are
compared with in that form.  A single significant word is decided without
drawing, and an even number of more words is refused without drawing.
-/

namespace CryptoPrimes.Prime

open Limbs CryptoPrimes.Modular

variable {w : Width} {σ : Type} [ByteSource σ]

/-- Scratch words of the test for a number of `n` words. -/
def roundsDepth (n : Nat) : Nat := 8 * n + powerMontDepth n

/-- What all rounds of one test share. -/
structure Candidate (w : Width) where
  /-- The number under test. -/
  modulus : Limbs w
  /-- The odd part of the number less one. -/
  oddPart : Limbs w
  /-- How many factors two were taken from it. -/
  twos : Nat
  /-- Draws below this bound, plus two, are the witnesses. -/
  bound : Limbs w
  /-- The negated inverse of the lowest word. -/
  m0 : Word w
  /-- The square of the Montgomery radix. -/
  radixSquare : Limbs w
  /-- One in Montgomery form. -/
  one : Limbs w
  /-- Minus one in Montgomery form. -/
  minusOne : Limbs w

/-- Prepare an odd number for its test. -/
def Candidate.ofOdd (a : Limbs w) : Candidate w :=
  let even := (subWord a 1).1
  let one := radixMod a
  { modulus := a
    oddPart := shiftRight even (trailingZeros even)
    twos := trailingZeros even
    bound := (subWord a 3).1
    m0 := (a.headD 0).negInverse
    radixSquare := radixSquareMod a
    one := one
    minusOne := (subBorrow a one false).1 }

/-- Whether one of the next `count` repeated squares of `y` is minus one.  Once
one appears, minus one cannot follow. -/
def reachesMinusOne (c : Candidate w) : Nat → Limbs w → Work w Bool
  | 0, _ => return false
  | count + 1, y => do
    let square ← montMul y y c.modulus c.m0
    if square = c.minusOne then return true
    else if square = c.one then return false
    else reachesMinusOne c count square

/-- Whether a witness lets the candidate pass. -/
def passes (c : Candidate w) (witness : Limbs w) : Work w Bool := do
  let t ← montMul witness c.radixSquare c.modulus c.m0
  let y ← powerMont t c.oddPart c.modulus c.m0 c.one
  if y = c.one ∨ y = c.minusOne then return true
  else reachesMinusOne c (c.twos - 1) y

/-- Run a number of rounds; stop at the first that fails, and when the source
does. -/
def runRounds (fuel : Nat) (c : Candidate w) : Nat → σ → Work w (Bool × σ)
  | 0, source => return (true, source)
  | rounds + 1, source => do
    let (draw, source) ← sampleBelow fuel c.bound.length c.bound source
    match draw with
    | none => return (false, source)
    | some x =>
      if ← passes c (addWord x 2).1 then runRounds fuel c rounds source
      else return (false, source)

/-- The strong test of `a` with `rounds` drawn witnesses. -/
def strongTest (fuel : Nat) (a : Limbs w) (rounds : Nat) (source : σ) : Work w (Bool × σ) := do
  if wordLen a ≤ 1 then
    return (SingleWord.isPrime (a.headD 0).toNat, source)
  else if !isOdd a then
    return (false, source)
  else
    Work.withBuffer (8 * a.length) fun _ => do
      let c := Candidate.ofOdd a
      let result ← runRounds fuel c rounds source
      return (result, c.minusOne ++ c.oddPart ++ c.bound)

end CryptoPrimes.Prime
