import CryptoPrimes.Prime.Params
import CryptoPrimes.Trapping.Division
import CryptoPrimes.Trapping.Prime

/-!
# Trapping prime searches

The two searches of `CryptoPrimes.Prime`, put together from trapping parts.  They
report the same events, and are run through parameters behind the same checks.
-/

namespace CryptoPrimes.Trapping

open Limbs CryptoPrimes.Prime

variable {w : Width} {σ : Type} [ByteSource σ]

/-- A step that may fault, in a search. -/
def attempt {α : Type} (c : Checked α) : Search w α := Search.quietly (liftM c)

/-! ## The next prime -/

/-- The smallest odd number from 3 that is not below `start`, in `n` words. -/
def firstCandidate (n : Nat) (start : Limbs w) : Checked (Limbs w) := do
  let len := wordLen start
  let first ← write (zeros n) 0 len (← slice start 0 len)
  let x ← wordAt first 0
  setWord first 0 (if len ≤ 1 ∧ x < 3 then 3 else x ||| 1)

/-- Residues of a number plus two. -/
def stepResidues (w : Width) : List Nat → List Nat → Checked (List Nat)
  | r :: rs, p :: ps => do
    let r ← singleWord w (r + 2)
    let r ← if p ≤ r then difference r p else pure r
    return r :: (← stepResidues w rs ps)
  | _, _ => return []

/-- Whether a number lies in the range of the factor base. -/
def isSmall (a : Limbs w) : Checked Bool :=
  if wordLen a ≤ 1 then do return (← wordAt a 0).toNat ≤ FactorBase.largest
  else return false

/-- Test a candidate that came through the sieve, as number `tested`. -/
def testCandidate (limits : WalkLimits) (out : Limbs w) (tested : Nat) : Search w Bool := do
  Search.emit (.testingCandidate tested (← attempt (bitLen out)))
  let found ← Search.quietly (isPrime limits.fuel out)
  if found then Search.emit (.candidateFound tested (← attempt (bitLen out)))
  return found

/-- Walk up from the candidate `out` with its residues, after `tested` tests. -/
def walk (limits : WalkLimits) (out : Limbs w) (residues : List Nat) (tested : Nat) :
    Search w (Bool × Limbs w) := do
  if limits.bits < (← attempt (bitLen out)) then
    Search.emit (.bitLimitReached tested limits.bits)
    return (false, out)
  else
    let survives := (← attempt (isSmall out)) || residues.all (· != 0)
    if survives && tested == limits.trials then
      Search.emit (.candidatesExhausted tested)
      return (false, out)
    else
      let tested ← if survives then attempt (checkedSize (tested + 1)) else pure tested
      let found ← if survives then testCandidate limits out tested else pure false
      if found then return (true, out)
      else
        match _h : addWord out 2 with
        | (next, carry) =>
          if _hc : carry = 0 then
            let residues ← attempt (stepResidues w residues FactorBase.primes)
            walk limits next residues tested
          else return (false, next)
termination_by 2 ^ (w.bits * out.length) - val out
decreasing_by exact room_addWord_lt _h _hc

/-- Find the smallest odd prime from `start` on that fits `out`, testing at most
`trials` candidates of at most `bitLimit` bits. -/
def nextPrime (fuel : Nat) (out start : Limbs w) (trials k bitLimit : Nat) :
    Search w (Bool × Limbs w) := do
  Search.ensure (k ≤ FactorBase.size) .outOfRange
  if out.length = 0 ∨ out.length < wordLen start then
    return (false, out)
  else
    let width ← attempt (checkedSize (out.length * w.bits))
    let first ← attempt (firstCandidate out.length start)
    Search.withBuffer k fun _ => do
      let residues ← attempt (residues k first)
      let result ← walk ⟨trials, min bitLimit width, fuel⟩ first residues 0
      return (result, residues.map Word.ofNat)

/-! ## Primes with a given factor -/

/-- A number, or one in the place of zero. -/
def atLeastOne (a : Limbs w) : Checked (Limbs w) :=
  if isZero a then setWord a 0 1 else return a

/-- The range of multipliers for candidates of `bits` bits, in `m` words. -/
def multipliers (m bits : Nat) (q : Limbs w) : Work w (Multipliers w) := do
  let step ← shlCarry (← write (zeros m) 0 q.length q) 1
  let lower ← powerLess m (← difference bits 1) 1
  let low ← divRem m m lower step.1
  let least ← atLeastOne (if isZero low.2 then low.1 else (addWord low.1 1).1)
  let upper ← powerLess m bits 2
  let high ← divRem m m upper step.1
  return ⟨step.1, least, high.1⟩

/-- How many multipliers there are, in `m` words. -/
def count (m : Nat) (range : Multipliers w) : Checked (Limbs w) := do
  let d ← sub m range.greatest range.least
  return (addWord d.1 1).1

/-- The candidate for the draw `x`, in twice `m` words. -/
def candidate (m : Nat) (range : Multipliers w) (x : Limbs w) : Checked (Limbs w) := do
  let r ← add m x range.least
  let product ← mul (← checkedSize (2 * m)) r.1 range.step
  return (addWord product 1).1

/-- Whether a candidate goes to the prime test. -/
def survivesSieve (k : Nat) (a : Limbs w) : Checked Bool :=
  if Prime.isSmall a then return true else isSieved k a

/-- The trials from number `trial` on, as many as remain, with draws below
`bound`, in working numbers of `m` words. -/
def runTrials (limits : TrialLimits) (m : Nat) (range : Multipliers w) (bound p : Limbs w) :
    Nat → Nat → σ → Search w ((Bool × Limbs w) × σ)
  | 0, _, source => do
    Search.emit (.drawsExhausted limits.trials limits.bits)
    return ((false, p), source)
  | remaining + 1, trial, source => do
    let (draw, source) ← attempt (sampleBelow ask limits.fuel m bound source)
    match draw with
    | none =>
      Search.emit (.sourceFailed trial)
      return ((false, p), source)
    | some x =>
      let candidate ← attempt (candidate m range x)
      Search.ensure ((← attempt (bitLen candidate)) = limits.bits) .brokenInvariant
      if ← attempt (survivesSieve limits.sieve candidate) then
        Search.emit (.testingDraw trial limits.bits)
        let result ← attempt (slice candidate 0 p.length)
        if ← Search.quietly (isPrime limits.fuel result) then
          let p ← attempt (write p 0 p.length result)
          Search.emit (.drawFound trial limits.bits)
          return ((true, p), source)
        else runTrials limits m range bound p remaining (trial + 1) source
      else runTrials limits m range bound p remaining (trial + 1) source

/-- Find a prime of exactly `bits` bits that is 1 modulo `2 * q`, in the words
of `p`. -/
def extendPrime (fuel : Nat) (p : Limbs w) (bits : Nat) (q : Limbs w) (trials k : Nat)
    (source : σ) : Search w ((Bool × Limbs w) × σ) := do
  Search.ensure (k ≤ FactorBase.size) .outOfRange
  let width ← attempt (checkedSize (p.length * w.bits))
  if bits < 2 ∨ width < bits ∨ isZero q then
    return ((false, p), source)
  else
    let m ← attempt (checkedSize (max p.length q.length + 1))
    let room ← attempt (checkedSize (2 * m))
    Search.withBuffer (6 * m + room) fun _ => do
      let range ← Search.quietly (multipliers m bits q)
      if (← attempt (compareSame range.least range.greatest)).isGT then
        Search.emit (.emptyRange bits)
        return (((false, p), source), range.step)
      else
        let bound ← attempt (count m range)
        let result ← runTrials ⟨trials, k, bits, fuel⟩ m range bound p trials 1 source
        return (result, range.step)

/-! ## Searches run through their parameters -/

/-- The trapping upward search with these parameters. -/
def SearchParams.nextPrime :
    SearchParams → Nat → Limbs w → Limbs w → Search w (Except Error Bool × Limbs w) :=
  Prime.SearchParams.nextPrimeBy Trapping.nextPrime

/-- The trapping search for a prime with a given factor, with these parameters. -/
def SearchParams.extendPrime : SearchParams → Nat → Limbs w → Nat → Limbs w → σ →
    Search w (Except Error Bool × Limbs w × σ) :=
  Prime.SearchParams.extendPrimeBy Trapping.extendPrime

end CryptoPrimes.Trapping
