import CryptoPrimes.Belt.Generator
import CryptoPrimes.Prime.Rounds

/-!
# The prime test

A number of one significant word is decided outright.  A longer one must be odd
and have no divisor in the factor base; then the strong test runs, with more
rounds for shorter numbers.  Its witnesses come from a generator keyed by the
number itself, so that a verdict can be reproduced.

The module also holds the two derived predicates: a number that factors
completely over a leading part of the base, and a prime whose half is prime.
-/

namespace CryptoPrimes.Prime

open Limbs

variable {w : Width}

/-! ## Probable primes -/

/-- Scratch words of the prime test for a number of `n` words. -/
def isPrimeDepth (n : Nat) : Nat := roundsDepth n

/-- Rounds of the strong test for a number of so many bits. -/
def roundsForBits (bits : Nat) : Nat :=
  if bits ≤ 512 then 40 else if bits ≤ 1024 then 32 else 24

/-- The source of witnesses for a number. -/
def witnessSource (a : Limbs w) : Belt.Generator :=
  Belt.Generator.start (some (Belt.hash (toOctets a)).octets)

/-- Whether a number passes the prime test. -/
def isPrime (fuel : Nat) (a : Limbs w) : Work w Bool := do
  match trim a with
  | [] => return false
  | [x] => return SingleWord.isPrime x.toNat
  | x :: xs =>
    let a := x :: xs
    if !isOdd a || !FactorBase.isSieved FactorBase.size a then
      return false
    else
      let result ← strongTest fuel a (roundsForBits (bitLen a)) (witnessSource a)
      return result.1

/-- Scratch words for a prime with a prime half. -/
def isSafePrimeDepth (n : Nat) : Nat := n + isPrimeDepth n

/-- Whether both `a` and `(a - 1) / 2` pass the prime test. -/
def isSafePrime (fuel : Nat) (a : Limbs w) : Work w Bool :=
  Work.withBuffer a.length fun buffer => do
    if ← isPrime fuel a then
      let half := shiftRight (subWord a 1).1 1
      return (← isPrime fuel half, half)
    else return (false, buffer)

/-! ## Smooth numbers -/

/-- Scratch words of the smoothness test. -/
def isSmoothDepth (n : Nat) : Nat := n

/-- Divide by `p` as long as that leaves no remainder.  Zero is left alone. -/
def divideOut (p : Word w) (t : Limbs w) : Limbs w :=
  if _h : 2 ≤ p.toNat ∧ isZero t = false ∧ remWord t p = 0 then divideOut p (divWord t p).1 else t
termination_by val t
decreasing_by
  refine val_divWord_lt _h.1 fun hz => ?_
  have := _h.2.1
  rw [isZero_iff.mpr hz] at this
  exact Bool.noConfusion this

/-- Whether a number is a product of primes among the first `k` of the base. -/
def isSmooth (k : Nat) (a : Limbs w) : Work w Bool := do
  require (k ≤ FactorBase.size) .outOfRange
  Work.withBuffer a.length fun _ => do
    if isZero a then return (false, a)
    else
      let t := (FactorBase.primes.take k).foldl (fun t p => divideOut (Word.ofNat p) t) a
      return (isWord t 1, t)

end CryptoPrimes.Prime
