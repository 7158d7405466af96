import CryptoPrimes.Error
import CryptoPrimes.Prime.Extend

/-!
# Search parameters

The knobs shared by both searches, and three ready-made settings of them.  A
search run through its parameters checks everything first: the parameters
themselves, then the scratch words.  Only then does it touch its result or its
byte source: an error is returned beside both, as they were given.
-/

namespace CryptoPrimes.Prime

open Limbs

/-- Parameters of a prime search. -/
structure SearchParams where
  /-- How many candidates are tested, or multipliers drawn. -/
  trials : Nat
  /-- How many base primes candidates are sieved by. -/
  sievePrimes : Nat
  /-- The largest number of bits of an upward search; none means the full width
  of its result. -/
  bitLimit : Option Nat
deriving DecidableEq

/-- Ready-made parameters. -/
inductive Preset where
  /-- A shallow sieve and few trials. -/
  | quick
  /-- General purpose. -/
  | standard
  /-- The full factor base and many trials. -/
  | exhaustive
deriving DecidableEq

namespace Preset

/-- The preset used where none is chosen. -/
def default : Preset := standard

/-- The parameters of a preset. -/
def params : Preset → SearchParams
  | quick => ⟨256, 128, none⟩
  | standard => ⟨4096, 512, none⟩
  | exhaustive => ⟨65536, FactorBase.size, none⟩

end Preset

namespace SearchParams

variable {w : Width} {σ : Type} [ByteSource σ]

/-- The parameters used where none are chosen. -/
def default : SearchParams := Preset.default.params

/-- There must be a trial, and no more sieving primes than the base has. -/
def validate (params : SearchParams) : Except Error Unit :=
  if params.trials = 0 then .error (.invalidParameter .noTrials)
  else if FactorBase.size < params.sievePrimes then
    .error (.invalidParameter (.sieveTooDeep params.sievePrimes FactorBase.size))
  else .ok ()

/-- Scratch words of an upward search for a result of `n` words. -/
def nextPrimeDepth (params : SearchParams) (n : Nat) : Nat :=
  Prime.nextPrimeDepth n params.sievePrimes

/-- The bits of `n` words, or the greatest size of the machine if they are more. -/
def fullWidth (w : Width) (n : Nat) : Nat := min (n * w.bits) (sizeLimit - 1)

/-- `validate` for a result of `bits` bits in `n` words. -/
def validateFor (params : SearchParams) (w : Width) (bits n : Nat) : Except Error Unit := do
  params.validate
  if fullWidth w n < bits then
    throw (.invalidParameter (.tooManyBits bits n))

/-- Refuse scratch that is too short. -/
def checkScratch (needed : Nat) (scratch : Limbs w) : Except Error Unit :=
  if scratch.length < needed then .error (.scratchTooSmall needed scratch.length) else .ok ()

/-- Run a search on valid parameters and scratch of the words needed, which are
counted only for valid parameters.  An error comes with what was `given`. -/
def behindChecks {α : Type} (validity : Except Error Unit) (needed : Nat) (given : α)
    (search : Search w (Bool × α)) : Search w (Except Error Bool × α) :=
  match validity with
  | .error e => return (.error e, given)
  | .ok () => do
    Search.ensure (needed < sizeLimit) .sizeOverflow
    match checkScratch needed (← get).scratch with
    | .error e => return (.error e, given)
    | .ok () =>
      let (found, result) ← search
      return (.ok found, result)

/-- An upward search, of its fuel, result, start value, trials, sieving primes and
bit limit. -/
abbrev UpwardSearch (w : Width) :=
  Nat → Limbs w → Limbs w → Nat → Nat → Nat → Search w (Bool × Limbs w)

/-- A search for a prime with a given factor, of its fuel, result, bits, factor, trials,
sieving primes and source. -/
abbrev FactorSearch (w : Width) (σ : Type) :=
  Nat → Limbs w → Nat → Limbs w → Nat → Nat → σ → Search w ((Bool × Limbs w) × σ)

/-- Run an upward search with these parameters. -/
def nextPrimeBy (search : UpwardSearch w) (params : SearchParams) (fuel : Nat)
    (out start : Limbs w) : Search w (Except Error Bool × Limbs w) :=
  let bitLimit := params.bitLimit.getD (fullWidth w out.length)
  behindChecks params.validate (params.nextPrimeDepth out.length) out
    (search fuel out start params.trials params.sievePrimes bitLimit)

/-- Run a search for a prime with a given factor with these parameters. -/
def extendPrimeBy (search : FactorSearch w σ) (params : SearchParams) (fuel : Nat) (p : Limbs w)
    (bits : Nat) (q : Limbs w) (source : σ) : Search w (Except Error Bool × Limbs w × σ) :=
  behindChecks (params.validateFor w bits p.length) (extendPrimeDepth p.length q.length) (p, source)
    (do
      let ((found, p), source) ← search fuel p bits q params.trials params.sievePrimes source
      return (found, p, source))

/-- The upward search with these parameters. -/
def nextPrime : SearchParams → Nat → Limbs w → Limbs w → Search w (Except Error Bool × Limbs w) :=
  nextPrimeBy Prime.nextPrime

/-- The search for a prime with a given factor, with these parameters. -/
def extendPrime : SearchParams → Nat → Limbs w → Nat → Limbs w → σ →
    Search w (Except Error Bool × Limbs w × σ) :=
  extendPrimeBy Prime.extendPrime

end SearchParams

end CryptoPrimes.Prime
