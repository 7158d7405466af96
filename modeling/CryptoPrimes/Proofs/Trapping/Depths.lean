import CryptoPrimes.Proofs.Prime.Params
import CryptoPrimes.Proofs.Trapping.Division
import CryptoPrimes.Proofs.Trapping.Extend
import CryptoPrimes.Proofs.Trapping.Smooth

/-!
# The declared depths suffice

Every routine that works on a scratch declares how many words it needs.  Here the
declarations are put to use: inside its domain a routine with that many scratch
words, or with more, meets none of the faults of `CryptoPrimes.Trapping`, and
gives what the plain routine gives, which no longer depends on the scratch at
all.

The only other end there is belongs to the routines that draw random numbers by
rejection: their draws are counted, and the count may run out.
-/

namespace CryptoPrimes.Trapping

open Limbs CryptoPrimes.Modular

variable {w : Width} {α : Type}

/-! ## Sufficient depths -/

/-- `depth` is a size, and on every scratch of at least so many words both forms
of a routine give one and the same result. -/
def Suffices (plain trapping : Work w α) (depth : Nat) : Prop :=
  depth < sizeLimit ∧ ∃ result, Work.Agree plain trapping depth (.ok result)

/-- The same of a routine that draws, and gives its result unless the draws run
out. -/
def SufficesToDraw (plain trapping : Work w α) (depth : Nat) : Prop :=
  depth < sizeLimit ∧ ∃ out, Work.Agree plain trapping depth out ∧ OnlyFuel out

/-- The same of a search, which reports the same events as well. -/
def SufficesToSearch (plain trapping : Search w α) (depth : Nat) : Prop :=
  depth < sizeLimit ∧ ∃ events out, Search.Agree plain trapping depth events out ∧ OnlyFuel out

/-- What is promised of every routine with a declared depth.  Numbers are no
longer than a memory of `sizeLimit` bits can hold. -/
structure DepthsSuffice (w : Width) : Prop where
  montMul : ∀ a b m : Limbs w, val m % 2 = 1 → a.length = m.length → b.length = m.length →
    w.bits * m.length < sizeLimit →
    Suffices (Modular.montMul a b m (m.headD 0).negInverse)
      (montMul a b m (m.headD 0).negInverse) (Modular.montMulDepth m.length)
  mulMod : ∀ a b m : Limbs w, val m % 2 = 1 → a.length = m.length → b.length = m.length →
    w.bits * m.length < sizeLimit →
    Suffices (Modular.mulMod a b m) (mulMod a b m) (Modular.mulModDepth m.length)
  sqrMod : ∀ a m : Limbs w, val m % 2 = 1 → a.length = m.length →
    w.bits * m.length < sizeLimit →
    Suffices (Modular.sqrMod a m) (sqrMod a m) (Modular.mulModDepth m.length)
  powerMont : ∀ a e m one : Limbs w, val m % 2 = 1 → a.length = m.length →
    one.length = m.length → w.bits * m.length < sizeLimit →
    Suffices (Modular.powerMont a e m (m.headD 0).negInverse one)
      (powerMont a e m (m.headD 0).negInverse one) (Modular.powerMontDepth m.length)
  powerMod : ∀ a e m : Limbs w, val m % 2 = 1 → a.length ≤ m.length →
    w.bits * m.length < sizeLimit →
    Suffices (Modular.powerMod a e m) (powerMod a e m) (Modular.powerModDepth m.length)
  /-- The quotient needs its words only if it is not zero. -/
  divRem : ∀ (qRoom : Nat) (a b : Limbs w), val b ≠ 0 →
    (val b ≤ val a → wordLen a - wordLen b + 1 ≤ qRoom) →
    w.bits * a.length < sizeLimit → w.bits * b.length < sizeLimit →
    Suffices (Limbs.divRem qRoom b.length a b) (divRem qRoom b.length a b)
      (divRemDepth a.length b.length)
  modReduce : ∀ a m : Limbs w, val m ≠ 0 →
    w.bits * a.length < sizeLimit → w.bits * m.length < sizeLimit →
    Suffices (Limbs.modReduce m.length a m) (modReduce m.length a m)
      (divRemDepth a.length m.length)
  strongTest : ∀ (σ : Type) [ByteSource σ] (fuel : Nat) (a : Limbs w) (rounds : Nat)
    (source : σ), w.bits * a.length < sizeLimit →
    SufficesToDraw (Prime.strongTest fuel a rounds source) (strongTest fuel a rounds source)
      (Prime.roundsDepth a.length)
  isPrime : ∀ (fuel : Nat) (a : Limbs w), w.bits * a.length < sizeLimit →
    SufficesToDraw (Prime.isPrime fuel a) (isPrime fuel a) (Prime.isPrimeDepth a.length)
  isSafePrime : ∀ (fuel : Nat) (a : Limbs w), w.bits * a.length < sizeLimit →
    SufficesToDraw (Prime.isSafePrime fuel a) (isSafePrime fuel a)
      (Prime.isSafePrimeDepth a.length)
  isSmooth : ∀ (k : Nat) (a : Limbs w), k ≤ FactorBase.size → w.bits * a.length < sizeLimit →
    Suffices (Prime.isSmooth k a) (isSmooth k a) (Prime.isSmoothDepth a.length)
  nextPrime : ∀ (fuel : Nat) (out start : Limbs w) (trials k bitLimit : Nat),
    k ≤ FactorBase.size → trials < sizeLimit → w.bits * out.length < sizeLimit →
    SufficesToSearch (Prime.nextPrime fuel out start trials k bitLimit)
      (nextPrime fuel out start trials k bitLimit) (Prime.nextPrimeDepth out.length k)
  extendPrime : ∀ (σ : Type) [ByteSource σ] (fuel : Nat) (p : Limbs w) (bits : Nat)
    (q : Limbs w) (trials k : Nat) (source : σ), k ≤ FactorBase.size →
    w.bits * p.length < sizeLimit → w.bits * q.length < sizeLimit →
    SufficesToSearch (Prime.extendPrime fuel p bits q trials k source)
      (extendPrime fuel p bits q trials k source)
      (Prime.extendPrimeDepth p.length q.length)

/-! ## They do -/

/-- A few times the words of a number are a size. -/
theorem words_lt {n count : Nat} (hbits : w.bits * n < sizeLimit) (h : count ≤ 16 * n + 2) :
    count < sizeLimit := by
  have := length_lt_of_bits hbits
  rw [sizeLimit]
  omega

theorem divRemDepth_lt {na nb : Nat} (ha : w.bits * na < sizeLimit)
    (hb : w.bits * nb < sizeLimit) : divRemDepth na nb < sizeLimit := by
  have := length_lt_of_bits ha
  have := length_lt_of_bits hb
  rw [divRemDepth, sizeLimit]
  omega

/-- No routine faults inside its domain, whatever scratch it is given of the
declared depth or more. -/
theorem depths_suffice (w : Width) : DepthsSuffice w where
  montMul a b m hodd ha hb hbits := by
    obtain ⟨r, h, -⟩ := montMul_agree hodd (isNegInverse_of_odd hodd) ha hb hbits
    exact ⟨words_lt hbits (by unfold montMulDepth; omega), r, h⟩
  mulMod a b m hodd ha hb hbits := by
    obtain ⟨r, h, -⟩ := mulMod_agree hodd ha hb hbits
    exact ⟨words_lt hbits (by unfold mulModDepth montMulDepth; omega), r, h⟩
  sqrMod a m hodd ha hbits := by
    obtain ⟨r, h, -⟩ := mulMod_agree hodd ha ha hbits
    exact ⟨words_lt hbits (by unfold mulModDepth montMulDepth; omega), r, h⟩
  powerMont a e m one hodd ha hone hbits := by
    obtain ⟨r, h, -⟩ := powerMont_agree hodd (isNegInverse_of_odd hodd) ha hone hbits e
    exact ⟨words_lt hbits (by unfold powerMontDepth montMulDepth; omega), r, h⟩
  powerMod a e m hodd ha hbits := by
    obtain ⟨r, h, -⟩ := powerMod_agree hodd ha hbits e
    exact ⟨words_lt hbits (by unfold powerModDepth powerMontDepth montMulDepth; omega), r, h⟩
  divRem qRoom a b hb hroom ha hbits := by
    have hroom' (hle : val b ≤ val a) : wordLen a + 1 ≤ qRoom + wordLen b := by
      have := hroom hle
      omega
    obtain ⟨q, r, h, -⟩ := divRem_agree (mt (wordLen_eq_zero_iff b).mp hb) hroom'
      (words_lt ha (by omega))
    exact ⟨divRemDepth_lt ha hbits, (q, r), h⟩
  modReduce a m hm ha hbits := by
    obtain ⟨r, h⟩ := modReduce_agree (a := a) (mt (wordLen_eq_zero_iff m).mp hm)
      (words_lt ha (by omega))
    exact ⟨divRemDepth_lt ha hbits, r, h⟩
  strongTest σ _ fuel a rounds source hbits :=
    ⟨words_lt hbits (by unfold Prime.roundsDepth powerMontDepth montMulDepth; omega),
      strongTestFrom_agree faithful_ask hbits fuel rounds trivial⟩
  isPrime fuel a hbits :=
    ⟨words_lt hbits (by
        unfold Prime.isPrimeDepth Prime.roundsDepth powerMontDepth montMulDepth; omega),
      Prime.primeOutcome fuel a, isPrime_agree hbits fuel, onlyFuel_primeOutcome fuel a⟩
  isSafePrime fuel a hbits :=
    ⟨words_lt hbits (by
        unfold Prime.isSafePrimeDepth Prime.isPrimeDepth Prime.roundsDepth powerMontDepth
          montMulDepth
        omega),
      isSafePrime_agree hbits fuel⟩
  isSmooth k a hk hbits := by
    obtain ⟨answer, h⟩ := isSmooth_agree hk a
    exact ⟨words_lt hbits (by unfold Prime.isSmoothDepth; omega), answer, h⟩
  nextPrime fuel out start trials k bitLimit hk htrials hbits :=
    ⟨Prime.nextPrimeDepth_lt hk hbits, nextPrime_agree start fuel bitLimit hk hbits htrials⟩
  extendPrime σ _ fuel p bits q trials k source hk hp hq :=
    ⟨Prime.extendPrimeDepth_lt hp hq, extendPrime_agree fuel trials source hk hp hq⟩

/-- On numbers of one word: a product modulo seven, seven divided by three, the
search from eight, and the search for a prime of five bits that is 1 modulo 6. -/
theorem depths_suffice_one_word :
    Suffices (Modular.montMul [2] [5] ([7] : Limbs .w64) (Word.negInverse 7))
        (montMul [2] [5] ([7] : Limbs .w64) (Word.negInverse 7)) 3 ∧
      Suffices (Limbs.divRem 1 1 ([7] : Limbs .w64) [3]) (divRem 1 1 ([7] : Limbs .w64) [3]) 3 ∧
      SufficesToSearch (Prime.nextPrime 1 ([0] : Limbs .w64) [8] 5 10 64)
        (nextPrime 1 ([0] : Limbs .w64) [8] 5 10 64) 22 ∧
      SufficesToSearch (Prime.extendPrime 1 ([0] : Limbs .w32) 5 [3] 5 10 (Finite.mk [9]))
        (extendPrime 1 ([0] : Limbs .w32) 5 [3] 5 10 (Finite.mk [9])) 28 := by
  refine ⟨?_, ?_, ?_, ?_⟩
  · exact (depths_suffice .w64).montMul [2] [5] [7] (by decide) rfl rfl (by decide)
  · exact (depths_suffice .w64).divRem 1 [7] [3] (by decide) (by decide) (by decide) (by decide)
  · exact (depths_suffice .w64).nextPrime 1 [0] [8] 5 10 64 (by decide) (by decide) (by decide)
  · exact (depths_suffice .w32).extendPrime Finite 1 [0] 5 [3] 5 10 (Finite.mk [9]) (by decide)
      (by decide) (by decide)

end CryptoPrimes.Trapping
