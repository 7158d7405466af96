import CryptoPrimes.Prime.Search
import CryptoPrimes.Prime.Test

/-!
# The next prime

The search walks up the odd numbers from a start value.  Beside the candidate it
keeps the residues modulo the first `k` base primes and steps them along, so a
candidate with a small divisor costs no division.  The others go to the prime
test, and numbers inside the factor base always do.

The walk ends when a candidate has too many bits, when as many candidates have
been tested as allowed, or silently when the candidate would not fit its words.
Each step raises the candidate by two and stays below the size of its words,
which is why the walk ends.
-/

namespace CryptoPrimes.Prime

open Limbs

variable {w : Width}

/-- Scratch words of the search for a result of `n` words and `k` sieving
primes. -/
def nextPrimeDepth (n k : Nat) : Nat := k + isPrimeDepth n

/-- The smallest odd number from 3 that is not below `start`, in `n` words. -/
def firstCandidate (n : Nat) (start : Limbs w) : Limbs w :=
  match extend (trim start) n with
  | [] => []
  | x :: xs => if isZero xs && x < 3 then 3 :: xs else (x ||| 1) :: xs

/-- Residues of a number plus two. -/
def stepResidues (residues : List Nat) : List Nat :=
  List.zipWith (fun r p => if p ≤ r + 2 then r + 2 - p else r + 2) residues FactorBase.primes

/-- Whether a number lies in the range of the factor base. -/
def isSmall (a : Limbs w) : Bool := wordLen a ≤ 1 && (a.headD 0).toNat ≤ FactorBase.largest

/-- What does not change during the walk. -/
structure WalkLimits where
  trials : Nat
  bits : Nat
  fuel : Nat

/-- Test a candidate that came through the sieve, as number `tested`. -/
def testCandidate (limits : WalkLimits) (out : Limbs w) (tested : Nat) : Search w Bool := do
  Search.emit (.testingCandidate tested (bitLen out))
  let found ← Search.quietly (isPrime limits.fuel out)
  if found then Search.emit (.candidateFound tested (bitLen out))
  return found

/-- Two more, with no carry out of the top, leave less room above. -/
theorem room_addWord_lt {out next : Limbs w} {carry : Word w} (h : addWord out 2 = (next, carry))
    (hc : carry = 0) :
    2 ^ (w.bits * next.length) - val next < 2 ^ (w.bits * out.length) - val out := by
  have hv := val_addWord out 2
  have hl := length_addWord out 2
  rw [h] at hv hl
  have hlt := val_lt next
  have h2 : (2 : Word w).toNat = 2 := by
    show (Word.ofNat 2 : Word w).toNat = 2
    cases w <;> simp [Width.bits]
  simp only [hc, Word.toNat_zero, Nat.mul_zero, Nat.add_zero, h2] at hv
  simp only at hl
  rw [hl] at hlt ⊢
  omega

/-- Walk up from the candidate `out` with its residues, after `tested` tests. -/
def walk (limits : WalkLimits) (out : Limbs w) (residues : List Nat) (tested : Nat) :
    Search w (Bool × Limbs w) := do
  if limits.bits < bitLen out then
    Search.emit (.bitLimitReached tested limits.bits)
    return (false, out)
  else
    let survives := isSmall out || residues.all (· != 0)
    if survives && tested == limits.trials then
      Search.emit (.candidatesExhausted tested)
      return (false, out)
    else
      let tested := if survives then tested + 1 else tested
      let found ← if survives then testCandidate limits out tested else pure false
      if found then return (true, out)
      else
        match _h : addWord out 2 with
        | (next, carry) =>
          if _hc : carry = 0 then walk limits next (stepResidues residues) tested
          else return (false, next)
termination_by 2 ^ (w.bits * out.length) - val out
decreasing_by exact room_addWord_lt _h _hc

/-- Find the smallest odd prime from `start` on that fits `out`, testing at most
`trials` candidates of at most `bitLimit` bits.  The result says whether one was
found, and what is in `out` afterwards. -/
def nextPrime (fuel : Nat) (out start : Limbs w) (trials k bitLimit : Nat) :
    Search w (Bool × Limbs w) := do
  Search.ensure (k ≤ FactorBase.size) .outOfRange
  if out.length = 0 ∨ out.length < wordLen start then
    return (false, out)
  else
    let limits := ⟨trials, min bitLimit (out.length * w.bits), fuel⟩
    let first := firstCandidate out.length start
    Search.withBuffer k fun _ => do
      let residues := FactorBase.residues k first
      let result ← walk limits first residues 0
      return (result, residues.map Word.ofNat)

end CryptoPrimes.Prime
