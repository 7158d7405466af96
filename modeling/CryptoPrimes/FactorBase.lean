import CryptoPrimes.Limbs.Division

/-!
# The factor base

The factor base holds the first 1024 odd primes, from 3 to 8167.  It decides the
primality of small numbers, and candidates of a prime search are sieved by a
leading part of it.

Residues modulo the whole base are computed in one pass over the words of a
number, most significant first; a single residue by division by a word.
-/

namespace CryptoPrimes.FactorBase

open Limbs

variable {w : Width}

/-- How many primes the base has. -/
def size : Nat := 1024

/-- The largest prime of the base. -/
def largest : Nat := 8167

/-- The odd numbers from 3 whose squares reach up to the largest base prime. -/
def trialDivisors : List Nat := List.range' 3 44 2

/-- Whether an odd number from 3 to `largest` has no divisor up to its root. -/
def isOddPrime (n : Nat) : Bool := trialDivisors.all fun d => n < d * d || n % d != 0

/-- The first odd primes, ascending. -/
def primes : List Nat := (List.range' 3 4083 2).filter isOddPrime

/-- The `i`-th base prime. -/
def prime (i : Nat) : Checked Nat :=
  match primes[i]? with
  | some p => .ok p
  | none => .error .outOfRange

/-- The base primes from position `first` up to, and without, position `last`. -/
def slice (first last : Nat) : Checked (List Nat) := do
  require (first ≤ last ∧ last ≤ size) .outOfRange
  return (primes.take last).drop first

/-- The position of a word in the base. -/
def position? (x : Word w) : Option Nat := primes.idxOf? x.toNat

/-- Whether a word is a base prime. -/
def contains (x : Word w) : Bool := (position? x).isSome

/-- The residues of a number modulo the first `k` base primes. -/
def residues (k : Nat) (a : Limbs w) : List Nat :=
  let radix := 2 ^ w.bits
  a.foldr (fun x rs => List.zipWith (fun r p => (r * radix + x.toNat) % p) rs primes)
    (List.replicate k 0)

/-- Whether none of the first `k` base primes divides a number. -/
def isSieved (k : Nat) (a : Limbs w) : Bool :=
  (primes.take k).all fun p => remWord a (Word.ofNat p) != 0

end CryptoPrimes.FactorBase
