import CryptoPrimes.Prime.Test
import CryptoPrimes.Trapping.Modular

/-!
# Trapping prime tests

The tests of `CryptoPrimes.Prime`, put together from trapping parts.  Where the
plain routine of a single word counts in natural numbers, this one says which
register each number is computed in.

A byte source is asked through a function that may itself stop with a fault:
the generator of witnesses copies by checked ranges.
-/

namespace CryptoPrimes.Trapping

open Limbs CryptoPrimes.Modular

variable {w : Width} {σ : Type}

/-! ## Division by the factor base -/

/-- Whether none of the given primes divides a number. -/
def noneDivides (a : Limbs w) : List Nat → Checked Bool
  | [] => return true
  | p :: ps => do
    if (← modWord a (Word.ofNat p)) = 0 then return false
    else noneDivides a ps

/-- Whether none of the first `k` base primes divides a number. -/
def isSieved (k : Nat) (a : Limbs w) : Checked Bool := do
  require (k ≤ FactorBase.size) .outOfRange
  noneDivides a (FactorBase.primes.take k)

/-- Take one more word into the residues modulo the given primes. -/
def residueRow (x : Word w) : List Nat → List Nat → Checked (List Nat)
  | r :: rs, p :: ps => do
    let t ← doubleWord w (r * 2 ^ w.bits + x.toNat)
    let r ← remainder t p
    return r :: (← residueRow x rs ps)
  | _, _ => return []

/-- The residues modulo the first `k` base primes, from the top word down. -/
def residues (k : Nat) : Limbs w → Checked (List Nat)
  | [] => do
    require (k ≤ FactorBase.size) .outOfRange
    return List.replicate k 0
  | x :: xs => do residueRow x (← residues k xs) FactorBase.primes

/-! ## A single word -/

namespace SingleWord

/-- A product modulo `m`. -/
def mulMod (w : Width) (a b m : Nat) : Checked Nat := do remainder (← doubleWord w (a * b)) m

/-- `acc * base ^ exponent` modulo `m`, from the low bits of the exponent. -/
def powerLoop (w : Width) (m acc base exponent : Nat) : Checked Nat :=
  if h : exponent = 0 then return acc
  else do
    let acc ← if exponent % 2 = 1 then mulMod w acc base m else pure acc
    let base ← mulMod w base base m
    powerLoop w m acc base (exponent / 2)
termination_by exponent
decreasing_by exact Nat.div_lt_self (Nat.pos_of_ne_zero h) (by decide)

/-- `base ^ exponent` modulo `m`. -/
def power (w : Width) (m base exponent : Nat) : Checked Nat := do
  powerLoop w m (← remainder 1 m) (← remainder base m) exponent

/-- Whether one of the next `count` repeated squares of `y` is `-1` modulo `n`. -/
def squaresToMinusOne (w : Width) (n : Nat) : Nat → Nat → Checked Bool
  | 0, _ => return false
  | count + 1, y => do
    let square ← mulMod w y y n
    if square = n - 1 then return true else squaresToMinusOne w n count square

/-- Whether `n`, with `n - 1 = 2 ^ s * d`, is a strong probable prime to each of
the given bases. -/
def strongToAll (w : Width) (n s d : Nat) : List Nat → Checked Bool
  | [] => return true
  | b :: bs => do
    let y ← power w n b d
    if y = 1 ∨ y = n - 1 then strongToAll w n s d bs
    else if ← squaresToMinusOne w n (s - 1) y then strongToAll w n s d bs
    else return false

/-- Whether none of the given primes, up to the first whose square exceeds `n`,
divides `n`. -/
def trialDivide (w : Width) (n : Nat) : List Nat → Checked Bool
  | [] => return true
  | p :: ps => do
    if n < (← singleWord w (p * p)) then return true
    else if (← remainder n p) = 0 then return false
    else trialDivide w n ps

/-- Primality of one word. -/
def isPrime (x : Word w) : Checked Bool := do
  let n := x.toNat
  if n < 2 then return false
  else if n % 2 = 0 then return n == 2
  else if n < CryptoPrimes.SingleWord.trialBound then trialDivide w n FactorBase.primes
  else
    let even ← wordDifference x 1
    require (even.trailingZeros < w.bits) .outOfRange
    strongToAll w n even.trailingZeros (even >>> even.trailingZeros).toNat
      CryptoPrimes.SingleWord.bases

end SingleWord

/-! ## Samples -/

section

variable (request : σ → Nat → Checked (Option Octets × σ))

/-- Draw `n` words, one request each. -/
def drawWords : Nat → σ → Checked (Option (Limbs w) × σ)
  | 0, source => return (some [], source)
  | n + 1, source => do
    match ← request source w.octets with
    | (none, source) => return (none, source)
    | (some octets, source) =>
      let rest ← drawWords n source
      return (rest.1.map (Word.ofOctets octets :: ·), rest.2)

/-- Draw blocks cut to `bits` bits until one is below `m`. -/
def sample (m : Limbs w) (bits : Nat) : Nat → σ → Checked (Option (Limbs w) × σ)
  | 0, _ => .error .outOfFuel
  | fuel + 1, source => do
    match ← drawWords request m.length source with
    | (none, source) => return (none, source)
    | (some block, source) =>
      let x ← trimBits block bits
      if (← compareSame x m).isLT then return (some x, source)
      else sample m bits fuel source

/-- A uniform number below `m`, into `room` words. -/
def sampleBelow (fuel room : Nat) (m : Limbs w) (source : σ) :
    Checked (Option (Limbs w) × σ) := do
  require (room = m.length) .lengthMismatch
  if isZero m then return (none, source)
  else sample request m (← bitLen m) fuel source

end

/-- Ask a byte source that does not fault. -/
def ask [ByteSource σ] (source : σ) (n : Nat) : Checked (Option Octets × σ) :=
  return ByteSource.request source n

/-! ## The strong test -/

/-- Prepare an odd number for its test. -/
def candidateOfOdd (a : Limbs w) : Checked (Prime.Candidate w) := do
  let even ← subWordTo a.length a 1
  let twos ← trailingZeros even.1
  let oddPart ← shiftRight even.1 twos
  let bound ← subWordTo a.length a 3
  let m0 ← (← wordAt a 0).negInverse?
  let radixSquare ← radixSquareMod a
  let one ← radixMod a
  let minusOne ← sub a.length a one
  return { modulus := a, oddPart, twos, bound := bound.1, m0, radixSquare, one,
           minusOne := minusOne.1 }

/-- Whether one of the next `count` repeated squares of `y` is minus one. -/
def reachesMinusOne (c : Prime.Candidate w) : Nat → Limbs w → Work w Bool
  | 0, _ => return false
  | count + 1, y => do
    let square ← montMul y y c.modulus c.m0
    if ← equalSame square c.minusOne then return true
    else if ← equalSame square c.one then return false
    else reachesMinusOne c count square

/-- Whether a witness lets the candidate pass. -/
def passes (c : Prime.Candidate w) (witness : Limbs w) : Work w Bool := do
  let t ← montMul witness c.radixSquare c.modulus c.m0
  let y ← powerMont t c.oddPart c.modulus c.m0 c.one
  if ← equalSame y c.one then return true
  else if ← equalSame y c.minusOne then return true
  else reachesMinusOne c (c.twos - 1) y

section

variable (request : σ → Nat → Checked (Option Octets × σ))

/-- Run a number of rounds. -/
def runRounds (fuel : Nat) (c : Prime.Candidate w) : Nat → σ → Work w (Bool × σ)
  | 0, source => return (true, source)
  | rounds + 1, source => do
    match ← sampleBelow request fuel c.modulus.length c.bound source with
    | (none, source) => return (false, source)
    | (some x, source) =>
      if ← passes c (addWord x 2).1 then runRounds fuel c rounds source
      else return (false, source)

/-- The strong test with the source asked through `request`. -/
def strongTestFrom (fuel : Nat) (a : Limbs w) (rounds : Nat) (source : σ) :
    Work w (Bool × σ) := do
  if wordLen a ≤ 1 then
    return (← SingleWord.isPrime (a.headD 0), source)
  else if !(← wordAt a 0).isOdd then
    return (false, source)
  else
    Work.withBuffer (8 * a.length) fun _ => do
      let c ← candidateOfOdd a
      let result ← runRounds request fuel c rounds source
      return (result, c.minusOne ++ c.oddPart ++ c.bound)

end

/-- The strong test of `a` with `rounds` drawn witnesses. -/
def strongTest [ByteSource σ] (fuel : Nat) (a : Limbs w) (rounds : Nat) (source : σ) :
    Work w (Bool × σ) :=
  strongTestFrom ask fuel a rounds source

/-! ## The prime test -/

/-- Absorb a number word by word. -/
def absorbWords : Belt.Hasher → Limbs w → Checked Belt.Hasher
  | state, [] => return state
  | state, x :: xs => do absorbWords (← state.checkedUpdate x.toOctets) xs

/-- The source of witnesses for a number. -/
def witnessSource (a : Limbs w) : Checked Belt.Generator := do
  let seed ← (← absorbWords Belt.Hasher.start a).checkedFinish
  let key ← (← Belt.Hasher.start.checkedUpdate seed.octets).checkedFinish
  return ⟨⟨key.octets, key.length_octets⟩, 0, .zeros Belt.digestOctets, Belt.digestOctets⟩

/-- The test of a number that starts with its significant words, two at least. -/
def testWords (fuel : Nat) (a : Limbs w) : Work w Bool := do
  if !(← wordAt a 0).isOdd then return false
  else if !(← isSieved FactorBase.size a) then return false
  else
    let rounds := Prime.roundsForBits (← bitLen a)
    let result ← strongTestFrom Belt.Generator.tryTake fuel a rounds (← witnessSource a)
    return result.1

/-- Whether a number passes the prime test. -/
def isPrime (fuel : Nat) (a : Limbs w) : Work w Bool := do
  match ← slice a 0 (wordLen a) with
  | [] => return false
  | [x] => SingleWord.isPrime x
  | a => testWords fuel a

/-- Whether both `a` and `(a - 1) / 2` pass the prime test. -/
def isSafePrime (fuel : Nat) (a : Limbs w) : Work w Bool :=
  Work.withBuffer a.length fun buffer => do
    if ← isPrime fuel a then
      let half ← write buffer 0 a.length a
      let half ← shiftRight (subWord half 1).1 1
      return (← isPrime fuel half, half)
    else return (false, buffer)

/-! ## Smooth numbers -/

/-- Divide by `p` as long as that leaves no remainder. -/
def divideOut (p : Word w) (t : Limbs w) : Checked (Limbs w) := do
  if (← modWord t p) = 0 then
    let quotient ← divWordChecked t p
    -- Division by one, or of zero, does not end; neither is asked for.
    if _ : val quotient.1 < val t then divideOut p quotient.1 else .error .brokenInvariant
  else return t
termination_by val t

/-- Divide by each of the given primes as often as possible. -/
def divideOutAll : List Nat → Limbs w → Checked (Limbs w)
  | [], t => return t
  | p :: ps, t => do divideOutAll ps (← divideOut (Word.ofNat p) t)

/-- Whether a number is a product of primes among the first `k` of the base. -/
def isSmooth (k : Nat) (a : Limbs w) : Work w Bool := do
  require (k ≤ FactorBase.size) .outOfRange
  Work.withBuffer a.length fun buffer => do
    let t ← write buffer 0 a.length a
    if isZero t then return (false, t)
    else
      let t ← divideOutAll (FactorBase.primes.take k) t
      return (isWord t 1, t)

end CryptoPrimes.Trapping
