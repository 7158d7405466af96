import CryptoPrimes.InPlace.Division
import CryptoPrimes.InPlace.Prime
import CryptoPrimes.Trapping.Search

/-!
# Prime searches in place

The upward search keeps its table of residues in a buffer of words, cleared and
then stepped along with the candidate, which lies in the words of the result.
The search for a given factor has seven working numbers in one buffer: twice the
factor, a number to be divided, the two ends of the range of multipliers, a
remainder, a draw, and a candidate of twice the length.
-/

namespace CryptoPrimes.InPlace

open Limbs CryptoPrimes.Prime Trapping

variable {w : Width} {σ : Type} [ByteSource σ]

/-! ## The table of residues -/

/-- Take one more word into the residues modulo the given primes. -/
def residueRow (x : Word w) : Limbs w → List Nat → Checked (Limbs w)
  | r :: rs, p :: ps => do
    let t ← doubleWord w (r.toNat * 2 ^ w.bits + x.toNat)
    let r ← remainder t p
    return Word.ofNat r :: (← residueRow x rs ps)
  | rs, _ => return rs

/-- The residues modulo the first base primes, one for each word of `table`. -/
def residues (table : Limbs w) : Limbs w → Checked (Limbs w)
  | [] => do
    require (table.length ≤ FactorBase.size) .outOfRange
    return cleared table
  | x :: xs => do residueRow x (← residues table xs) FactorBase.primes

/-- Residues of a number plus two. -/
def stepResidues : Limbs w → List Nat → Checked (Limbs w)
  | r :: rs, p :: ps => do
    let r ← wordSum r 2
    let r ← if r < Word.ofNat p then pure r else wordDifference r (Word.ofNat p)
    return r :: (← stepResidues rs ps)
  | rs, _ => return rs

/-! ## The next prime

The search has two arguments for what it does at a candidate.  With `look` it is shown
every candidate and the table beside it; with `test` it decides about those that came
through the sieve.  Either may report or fault, which shows when it is called, and on what.
-/

/-- The smallest odd number from 3 that is not below `start`. -/
def firstCandidate (out start : Limbs w) : Checked (Limbs w) := do
  let len := wordLen start
  let first ← write (cleared out) 0 len (← slice start 0 len)
  let x ← wordAt first 0
  if len ≤ 1 ∧ x < 3 then setWord first 0 3
  else if x.isOdd then return first
  else setWord first 0 (x ||| 1)

/-- Test a candidate that came through the sieve, as number `tested`. -/
def testCandidateWith (test : Limbs w → Search w Bool) (out : Limbs w) (tested : Nat) :
    Search w Bool := do
  Search.emit (.testingCandidate tested (← attempt (bitLen out)))
  let found ← test out
  if found then Search.emit (.candidateFound tested (← attempt (bitLen out)))
  return found

/-- Walk up from the candidate `out` with its residues, after `tested` tests; also
the residues that are left. -/
def walkWith (look : Limbs w → Limbs w → Search w Unit) (test : Limbs w → Search w Bool)
    (limits : WalkLimits) (out table : Limbs w) (tested : Nat) :
    Search w ((Bool × Limbs w) × Limbs w) := do
  look out table
  if limits.bits < (← attempt (bitLen out)) then
    Search.emit (.bitLimitReached tested limits.bits)
    return ((false, out), table)
  else
    let survives := (← attempt (Trapping.isSmall out)) || table.all (· != 0)
    if survives && tested == limits.trials then
      Search.emit (.candidatesExhausted tested)
      return ((false, out), table)
    else
      let tested ← if survives then attempt (checkedSize (tested + 1)) else pure tested
      let found ← if survives then testCandidateWith test out tested else pure false
      if found then return ((true, out), table)
      else
        match _h : addWord out 2 with
        | (next, carry) =>
          if _hc : carry = 0 then
            let table ← attempt (stepResidues table FactorBase.primes)
            walkWith look test limits next table tested
          else return ((false, next), table)
termination_by 2 ^ (w.bits * out.length) - val out
decreasing_by exact room_addWord_lt _h _hc

/-- Find the smallest odd number from `start` on that fits `out` and passes `test`,
testing at most `trials` candidates of at most `bitLimit` bits. -/
def nextPrimeWith (look : Limbs w → Limbs w → Search w Unit) (test : Limbs w → Search w Bool)
    (fuel : Nat) (out start : Limbs w) (trials k bitLimit : Nat) : Search w (Bool × Limbs w) := do
  Search.ensure (k ≤ FactorBase.size) .outOfRange
  if out.length = 0 ∨ out.length < wordLen start then
    return (false, out)
  else
    let width ← attempt (checkedSize (out.length * w.bits))
    let out ← attempt (firstCandidate out start)
    Search.withBuffer k fun table => do
      let table ← attempt (residues table out)
      walkWith look test ⟨trials, min bitLimit width, fuel⟩ out table 0

/-- Pass by a candidate and its table. -/
def passBy (_out _table : Limbs w) : Search w Unit := return ()

/-- Assert that residues of the candidate, computed afresh, are those in the table. -/
def assertResidues (out table : Limbs w) : Search w Unit := do
  Search.ensure ((← attempt (residues table out)) = table) .brokenInvariant

/-- The prime test, as the upward search asks it. -/
def askPrime (fuel : Nat) (a : Limbs w) : Search w Bool := Search.quietly (isPrime fuel a)

/-- Put a candidate that came through the sieve to the prime test, as number `tested`. -/
def testCandidate (limits : WalkLimits) : Limbs w → Nat → Search w Bool :=
  testCandidateWith (askPrime limits.fuel)

/-- Walk up to the next prime. -/
def walk (limits : WalkLimits) :
    Limbs w → Limbs w → Nat → Search w ((Bool × Limbs w) × Limbs w) :=
  walkWith passBy (askPrime limits.fuel) limits

/-- Find the smallest odd prime from `start` on that fits `out`, testing at most
`trials` candidates of at most `bitLimit` bits. -/
def nextPrime (fuel : Nat) : Limbs w → Limbs w → Nat → Nat → Nat → Search w (Bool × Limbs w) :=
  nextPrimeWith passBy (askPrime fuel) fuel

/-! ## Primes with a given factor -/

/-- `2 ^ bit - x` into `target`. -/
def powerLess (target : Limbs w) (bit : Nat) (x : Word w) : Checked (Limbs w) := do
  let power ← setBit (cleared target) bit true
  return (Limbs.subWord power x).1

/-- The product of `a` and `b` into `target`, which it must fill exactly. -/
def mul (target a b : Limbs w) : Checked (Limbs w) := do
  require (target.length = a.length + b.length) .lengthMismatch
  mulRows a 0 (cleared target) b

/-- The range of multipliers for candidates of `bits` bits, in the first five
working numbers of `m` words; also what is left in those for the dividend and
the remainder. -/
def multipliers (buffer : Limbs w) (m bits : Nat) (q : Limbs w) :
    Work w (Multipliers w × Limbs w × Limbs w) := do
  let step ← write (cleared (buffer.part m 0)) 0 q.length q
  let step := (← shlCarry step 1).1
  let num ← powerLess (buffer.part m 1) (← difference bits 1) 1
  let (least, rem) ← divRem (buffer.part m 2) (buffer.part m 4) num step
  let least ← atLeastOne (if isZero rem then least else (addWord least 1).1)
  let num ← powerLess num bits 2
  let (greatest, rem) ← divRem (buffer.part m 3) rem num step
  return (⟨step, least, greatest⟩, num, rem)

/-- How many multipliers there are, into `num`. -/
def count (num : Limbs w) (range : Multipliers w) : Checked (Limbs w) := do
  let d ← sub num range.greatest range.least
  return (addWord d.1 1).1

/-- The draw moved into the range, and its candidate in the words of `cand`. -/
def candidate (range : Multipliers w) (x cand : Limbs w) : Checked (Limbs w × Limbs w) := do
  let r ← Limbs.add x.length x range.least
  let product ← mul cand r.1 range.step
  return (r.1, (addWord product 1).1)

/-- The trials from number `trial` on, as many as remain, with draws below
`bound` into `x` and candidates in `cand`; also what is left there. -/
def runTrials (limits : TrialLimits) (range : Multipliers w) (bound p : Limbs w) :
    Nat → Nat → Limbs w → Limbs w → σ → Search w (((Bool × Limbs w) × σ) × Limbs w)
  | 0, _, x, cand, source => do
    Search.emit (.drawsExhausted limits.trials limits.bits)
    return (((false, p), source), x ++ cand)
  | remaining + 1, trial, x, cand, source => do
    let ((served, x), source) ← attempt (sampleBelow ask limits.fuel x bound source)
    if served then
      let (x, cand) ← attempt (candidate range x cand)
      Search.ensure ((← attempt (bitLen cand)) = limits.bits) .brokenInvariant
      if ← attempt (Trapping.survivesSieve limits.sieve cand) then
        Search.emit (.testingDraw trial limits.bits)
        let result ← attempt (slice cand 0 p.length)
        if ← Search.quietly (isPrime limits.fuel result) then
          let p ← attempt (store p result)
          Search.emit (.drawFound trial limits.bits)
          return (((true, p), source), x ++ cand)
        else runTrials limits range bound p remaining (trial + 1) x cand source
      else runTrials limits range bound p remaining (trial + 1) x cand source
    else
      Search.emit (.sourceFailed trial)
      return (((false, p), source), x ++ cand)

/-- Find a prime of exactly `bits` bits that is 1 modulo `2 * q`, in the words
of `p`. -/
def extendPrime (fuel : Nat) (p : Limbs w) (bits : Nat) (q : Limbs w) (trials k : Nat)
    (source : σ) : Search w ((Bool × Limbs w) × σ) := do
  Search.ensure (k ≤ FactorBase.size) .outOfRange
  let width ← attempt (checkedSize (p.length * w.bits))
  if bits < 2 ∨ width < bits ∨ isZero q then
    return ((false, p), source)
  else
    let m ← attempt (checkedSize (max p.length q.length + 1))
    let room ← attempt (checkedSize (2 * m))
    Search.withBuffer (6 * m + room) fun buffer => do
      let x := buffer.part m 5
      let cand := buffer.drop (6 * m)
      let (range, num, rem) ← Search.quietly (multipliers buffer m bits q)
      if (← attempt (compareSame range.least range.greatest)).isGT then
        Search.emit (.emptyRange bits)
        return (((false, p), source),
          range.step ++ num ++ range.least ++ range.greatest ++ rem ++ x ++ cand)
      else
        let num ← attempt (count num range)
        let (result, drawn) ←
          runTrials ⟨trials, k, bits, fuel⟩ range num p trials 1 x cand source
        return (result, range.step ++ num ++ range.least ++ range.greatest ++ rem ++ drawn)

/-! ## Searches run through their parameters -/

/-- The upward search in place with these parameters. -/
def SearchParams.nextPrime :
    SearchParams → Nat → Limbs w → Limbs w → Search w (Except Error Bool × Limbs w) :=
  Prime.SearchParams.nextPrimeBy InPlace.nextPrime

/-- The search in place for a prime with a given factor, with these parameters. -/
def SearchParams.extendPrime : SearchParams → Nat → Limbs w → Nat → Limbs w → σ →
    Search w (Except Error Bool × Limbs w × σ) :=
  Prime.SearchParams.extendPrimeBy InPlace.extendPrime

end CryptoPrimes.InPlace
