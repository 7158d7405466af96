import CryptoPrimes.FactorBase

/-!
# Primality of a single word

Odd numbers below the square of the largest base prime are decided by trial
division.  Above it, a number counts as prime if it is a strong probable prime
to each of the first twelve primes as bases: with `n - 1 = 2 ^ s * d` and `d`
odd, `b ^ d` is 1, or one of its first `s` repeated squares is `-1`, modulo `n`.
-/

namespace CryptoPrimes.SingleWord

/-- Numbers below this bound are decided by trial division. -/
def trialBound : Nat := FactorBase.largest * FactorBase.largest

/-- The bases of the strong test. -/
def bases : List Nat := [2, 3, 5, 7, 11, 13, 17, 19, 23, 29, 31, 37]

/-- `acc * base ^ exponent` modulo `n`, from the low bits of the exponent. -/
def powerLoop (n acc base exponent : Nat) : Nat :=
  if h : exponent = 0 then acc
  else powerLoop n (if exponent % 2 = 1 then acc * base % n else acc) (base * base % n)
    (exponent / 2)
termination_by exponent
decreasing_by exact Nat.div_lt_self (Nat.pos_of_ne_zero h) (by decide)

/-- `base ^ exponent` modulo `n`. -/
def power (n base exponent : Nat) : Nat := powerLoop n (1 % n) (base % n) exponent

/-- Whether one of the next `count` repeated squares of `y` is `-1` modulo `n`. -/
def squaresToMinusOne (n : Nat) : Nat → Nat → Bool
  | 0, _ => false
  | count + 1, y =>
    let square := y * y % n
    square == n - 1 || squaresToMinusOne n count square

/-- The number of factors two of `n`, and what is left without them; `fuel`
bounds their number. -/
def splitTwos : Nat → Nat → Nat × Nat
  | 0, n => (0, n)
  | fuel + 1, n =>
    if n % 2 = 0 then
      let rest := splitTwos fuel (n / 2)
      (rest.1 + 1, rest.2)
    else (0, n)

/-- Whether `n` is a strong probable prime to base `b`. -/
def isStrong (n b : Nat) : Bool :=
  let parts := splitTwos 64 (n - 1)
  let y := power n b parts.2
  y == 1 || y == n - 1 || squaresToMinusOne n (parts.1 - 1) y

/-- Primality of a number of one word. -/
def isPrime (n : Nat) : Bool :=
  if n < 2 then false
  else if n % 2 = 0 then n == 2
  else if n < trialBound then
    (FactorBase.primes.takeWhile fun p => p * p ≤ n).all fun p => n % p != 0
  else bases.all (isStrong n)

end CryptoPrimes.SingleWord
