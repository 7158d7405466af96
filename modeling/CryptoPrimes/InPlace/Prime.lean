import CryptoPrimes.InPlace.Modular
import CryptoPrimes.Trapping.Prime

/-!
# Prime tests in place

The strong test works in eight buffers of the length of the number under test:
the number less one in Montgomery form, the odd part of the number less one, the
bound of a draw, the witness, its powers, a product, and the two constants of
Montgomery's form.  Four of them are set once; witness, power and product are
overwritten in every round, and hold what the last round has left there.

The words a sample is drawn into are written one by one and trimmed where they lie.  A
block that is rejected stays in them until the next one is drawn over it, and a draw
that the source cuts short leaves the words it has not reached as they were.
-/

namespace CryptoPrimes.InPlace

open Limbs CryptoPrimes.Modular Trapping

variable {w : Width} {σ : Type}

/-! ## Samples -/

section

variable (request : σ → Nat → Checked (Option Octets × σ))

/-- Fill words from the source, one request each; whether all were served. -/
def drawWords : Limbs w → σ → Checked ((Bool × Limbs w) × σ)
  | [], source => return ((true, []), source)
  | x :: xs, source => do
    match ← request source w.octets with
    | (none, source) => return ((false, x :: xs), source)
    | (some octets, source) =>
      let ((served, rest), source) ← drawWords xs source
      return ((served, Word.ofOctets octets :: rest), source)

/-- Draw blocks cut to `bits` bits until one is below `m`. -/
def sample (m : Limbs w) (bits : Nat) :
    Nat → Limbs w → σ → Checked ((Bool × Limbs w) × σ)
  | 0, _, _ => .error .outOfFuel
  | fuel + 1, r, source => do
    let ((served, r), source) ← drawWords request r source
    if served then
      let r ← trimBits r bits
      if (← compareSame r m).isLT then return ((true, r), source)
      else sample m bits fuel r source
    else return ((false, r), source)

/-- A uniform number below `m` into `r`; whether the source served it. -/
def sampleBelow (fuel : Nat) (r m : Limbs w) (source : σ) :
    Checked ((Bool × Limbs w) × σ) := do
  require (r.length = m.length) .lengthMismatch
  if isZero m then return ((false, r), source)
  else sample request m (← bitLen m) fuel r source

/-- Draw blocks cut to `bits` bits until one is not zero and is below `m`. -/
def sampleNonzero (m : Limbs w) (bits : Nat) :
    Nat → Limbs w → σ → Checked ((Bool × Limbs w) × σ)
  | 0, _, _ => .error .outOfFuel
  | fuel + 1, r, source => do
    let ((served, r), source) ← drawWords request r source
    if served then
      let r ← trimBits r bits
      if isZero r then sampleNonzero m bits fuel r source
      else if (← compareSame r m).isLT then return ((true, r), source)
      else sampleNonzero m bits fuel r source
    else return ((false, r), source)

/-- A uniform number from 1 up to `m` into `r`; whether there is one and the
source served it. -/
def sampleNonzeroBelow (fuel : Nat) (r m : Limbs w) (source : σ) :
    Checked ((Bool × Limbs w) × σ) := do
  require (r.length = m.length) .lengthMismatch
  let bits ← bitLen m
  if bits ≤ 1 then return ((false, r), source)
  else sampleNonzero request m bits fuel r source

end

/-! ## The strong test -/

/-- Prepare an odd number for its test, in buffers of its length. -/
def candidateOfOdd (buffer a : Limbs w) : Checked (Prime.Candidate w) := do
  let n := a.length
  let even ← subWord (buffer.part n 1) a 1
  let twos ← trailingZeros even
  let oddPart ← shiftRight even twos
  let bound ← subWord (buffer.part n 2) a 3
  let m0 ← (← wordAt a 0).negInverse?
  let radixSquare ← radixSquareMod (buffer.part n 6) a
  let one ← radixMod (buffer.part n 7) a
  let minusOne ← sub (buffer.part n 0) a one
  return { modulus := a, oddPart, twos, bound, m0, radixSquare, one, minusOne := minusOne.1 }

/-- Whether one of the next `count` repeated squares of `y` is minus one; also the
last square and the last number squared. -/
def reachesMinusOne (c : Prime.Candidate w) :
    Nat → Limbs w → Limbs w → Work w (Bool × Limbs w × Limbs w)
  | 0, y, t => return (false, y, t)
  | count + 1, y, t => do
    let t ← store t y
    let y ← montMul y t t c.modulus c.m0
    if ← equalSame y c.minusOne then return (true, y, t)
    else if ← equalSame y c.one then return (false, y, t)
    else reachesMinusOne c count y t

/-- Whether a witness lets the candidate pass; also what is left in `y` and
`t`. -/
def passes (c : Prime.Candidate w) (witness y t : Limbs w) :
    Work w (Bool × Limbs w × Limbs w) := do
  let t ← montMul t witness c.radixSquare c.modulus c.m0
  let y ← powerMont y t c.oddPart c.modulus c.m0 c.one
  if ← equalSame y c.one then return (true, y, t)
  else if ← equalSame y c.minusOne then return (true, y, t)
  else reachesMinusOne c (c.twos - 1) y t

section

variable (request : σ → Nat → Checked (Option Octets × σ))

/-- Run a number of rounds; also what is left in witness, power and product. -/
def runRounds (fuel : Nat) (c : Prime.Candidate w) :
    Nat → Limbs w → Limbs w → Limbs w → σ → Work w ((Bool × σ) × Limbs w)
  | 0, x, y, t, source => return ((true, source), x ++ y ++ t)
  | rounds + 1, x, y, t, source => do
    let ((served, x), source) ← sampleBelow request fuel x c.bound source
    if served then
      let x := (addWord x 2).1
      let (passed, y, t) ← passes c x y t
      if passed then runRounds fuel c rounds x y t source
      else return ((false, source), x ++ y ++ t)
    else return ((false, source), x ++ y ++ t)

/-- The strong test with the source asked through `request`. -/
def strongTestFrom (fuel : Nat) (a : Limbs w) (rounds : Nat) (source : σ) :
    Work w (Bool × σ) := do
  if wordLen a ≤ 1 then
    return (← Trapping.SingleWord.isPrime (a.headD 0), source)
  else if !(← wordAt a 0).isOdd then
    return (false, source)
  else
    let n := a.length
    Work.withBuffer (8 * n) fun buffer => do
      let c ← candidateOfOdd buffer a
      let (result, drawn) ←
        runRounds request fuel c rounds (buffer.part n 3) (buffer.part n 4) (buffer.part n 5) source
      return (result, c.minusOne ++ c.oddPart ++ c.bound ++ drawn ++ c.radixSquare ++ c.one)

end

/-- The strong test of `a` with `rounds` drawn witnesses. -/
def strongTest [ByteSource σ] (fuel : Nat) (a : Limbs w) (rounds : Nat) (source : σ) :
    Work w (Bool × σ) :=
  strongTestFrom ask fuel a rounds source

/-! ## The prime test -/

/-- The test of a number that starts with its significant words, two at least. -/
def testWords (fuel : Nat) (a : Limbs w) : Work w Bool := do
  if !(← wordAt a 0).isOdd then return false
  else if !(← isSieved FactorBase.size a) then return false
  else
    let rounds := Prime.roundsForBits (← bitLen a)
    let result ← strongTestFrom Belt.Generator.tryTake fuel a rounds (← witnessSource a)
    return result.1

/-- Whether a number passes the prime test. -/
def isPrime (fuel : Nat) (a : Limbs w) : Work w Bool := do
  match ← slice a 0 (wordLen a) with
  | [] => return false
  | [x] => Trapping.SingleWord.isPrime x
  | a => testWords fuel a

/-- Whether both `a` and `(a - 1) / 2` pass the prime test. -/
def isSafePrime (fuel : Nat) (a : Limbs w) : Work w Bool :=
  Work.withBuffer a.length fun half => do
    if ← isPrime fuel a then
      let half ← store half a
      let half ← shiftRight (Limbs.subWord half 1).1 1
      return (← isPrime fuel half, half)
    else return (false, half)

end CryptoPrimes.InPlace
