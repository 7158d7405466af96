import CryptoPrimes.Prime.Next

/-!
# Primes with a given factor

Given `q`, the search looks for a prime `p = 2 * r * q + 1` of exactly `bits`
bits.  The numbers of that form and length are those with `r` in a range whose
ends come from two divisions by `2 * q`: `2 ^ (bits - 1) - 1` rounded up and
`2 ^ bits - 2` rounded down.  A trial draws `r` uniformly from the range, sieves
the candidate and passes it to the prime test.

The search ends with the first prime, when the byte source fails, or after as
many trials as allowed.  An empty range ends it before the first trial.
-/

namespace CryptoPrimes.Prime

open Limbs

variable {w : Width} {σ : Type} [ByteSource σ]

/-- Words of a working number for a result of `n` and a factor of `nq` words. -/
def workingWords (n nq : Nat) : Nat := max n nq + 1

/-- Scratch words of the search for a result of `n` words and a factor of `nq`
words. -/
def extendPrimeDepth (n nq : Nat) : Nat :=
  let m := workingWords n nq
  8 * m + max (divRemDepth m m) (isPrimeDepth n)

/-! ## The range of multipliers -/

/-- The multipliers that give a number of the right length. -/
structure Multipliers (w : Width) where
  /-- Twice the factor. -/
  step : Limbs w
  /-- The least multiplier. -/
  least : Limbs w
  /-- The greatest multiplier. -/
  greatest : Limbs w

/-- `2 ^ bit - x` in `m` words. -/
def powerLess (m bit : Nat) (x : Word w) : Checked (Limbs w) := do
  let power ← setBit (zeros m) bit true
  return (subWord power x).1

/-- The range of multipliers for candidates of `bits` bits, in `m` words. -/
def multipliers (m bits : Nat) (q : Limbs w) : Work w (Multipliers w) := do
  let step := (shlWithin (extend q m) 1).1
  let lower ← powerLess m (bits - 1) 1
  let low ← divRem m m lower step
  let least := if isZero low.2 then low.1 else (addWord low.1 1).1
  let least := if isZero least then one m else least
  let upper ← powerLess m bits 2
  let high ← divRem m m upper step
  return ⟨step, least, high.1⟩

/-- How many multipliers there are. -/
def Multipliers.count (range : Multipliers w) : Limbs w :=
  (addWord (subBorrow range.greatest range.least false).1 1).1

/-- The candidate for the draw `x`. -/
def Multipliers.candidate (range : Multipliers w) (x : Limbs w) : Limbs w :=
  (addWord (mul (addCarry x range.least false).1 range.step) 1).1

/-! ## The trials -/

/-- What does not change between trials. -/
structure TrialLimits where
  trials : Nat
  sieve : Nat
  bits : Nat
  fuel : Nat

/-- Whether a candidate goes to the prime test.  Numbers in the range of the
factor base always do. -/
def survivesSieve (k : Nat) (a : Limbs w) : Bool := isSmall a || FactorBase.isSieved k a

/-- The trials from number `trial` on, as many as remain, for a result that is
`p` unless a prime is found. -/
def runTrials (limits : TrialLimits) (range : Multipliers w) (p : Limbs w) :
    Nat → Nat → σ → Search w ((Bool × Limbs w) × σ)
  | 0, _, source => do
    Search.emit (.drawsExhausted limits.trials limits.bits)
    return ((false, p), source)
  | remaining + 1, trial, source => do
    let (draw, source) ← Search.quietly
      (sampleBelow limits.fuel range.count.length range.count source)
    match draw with
    | none =>
      Search.emit (.sourceFailed trial)
      return ((false, p), source)
    | some x =>
      let candidate := range.candidate x
      Search.ensure (bitLen candidate = limits.bits) .brokenInvariant
      if survivesSieve limits.sieve candidate then
        Search.emit (.testingDraw trial limits.bits)
        let result := candidate.take p.length
        if ← Search.quietly (isPrime limits.fuel result) then
          Search.emit (.drawFound trial limits.bits)
          return ((true, result), source)
        else runTrials limits range p remaining (trial + 1) source
      else runTrials limits range p remaining (trial + 1) source

/-- Find a prime of exactly `bits` bits that is 1 modulo `2 * q`, in the words
of `p`.  The result says whether one was found, and what is in `p` afterwards. -/
def extendPrime (fuel : Nat) (p : Limbs w) (bits : Nat) (q : Limbs w) (trials k : Nat)
    (source : σ) : Search w ((Bool × Limbs w) × σ) := do
  Search.ensure (k ≤ FactorBase.size) .outOfRange
  if bits < 2 ∨ p.length * w.bits < bits ∨ isZero q then
    return ((false, p), source)
  else
    let m := workingWords p.length q.length
    Search.withBuffer (8 * m) fun _ => do
      let range ← Search.quietly (multipliers m bits q)
      if less range.greatest range.least then
        Search.emit (.emptyRange bits)
        return (((false, p), source), range.step)
      else
        let result ← runTrials ⟨trials, k, bits, fuel⟩ range p trials 1 source
        return (result, range.step)

end CryptoPrimes.Prime
