import Mathlib.NumberTheory.LucasLehmer
import CryptoPrimes.Prime.Test
import CryptoPrimes.Proofs.Belt.Stream
import CryptoPrimes.Proofs.Prime.Rounds
import CryptoPrimes.Proofs.Prime.SingleWord

/-!
# What the prime test answers

`primeOutcome` says what the prime test answers without its scratch
(`isPrime_computes`).  It reads nothing but the number (`primeOutcome_congr`),
and the only thing that can keep it from an answer is fuel.

* `primeOutcome_of_prime` — a prime is never rejected: it passes the sieve, and
  it is strong to every witness below it;
* `primeOutcome_small` — in the range of trial division the answer is exact;
* `primeOutcome_of_factor` — a factor two, or a factor in the base, is fatal to
  a number of two words or more.
-/

namespace CryptoPrimes.Prime

open Limbs

variable {w : Width}

/-- The answer of the prime test, if the fuel suffices for its draws. -/
def primeOutcome (fuel : Nat) (a : Limbs w) : Checked Bool :=
  if wordLen a ≤ 1 then .ok (SingleWord.isPrime (val a))
  else if !isOdd (trim a) || !FactorBase.isSieved FactorBase.size (trim a) then .ok false
  else
    (roundsOutcome (isStrongBase (trim a)) fuel (Candidate.ofOdd (trim a)).bound
      (roundsForBits (bitLen (trim a))) (witnessSource (trim a))).map Prod.fst

theorem isPrimeDepth_le {m n : Nat} (h : m ≤ n) : isPrimeDepth m ≤ isPrimeDepth n := by
  simp only [isPrimeDepth, roundsDepth, Modular.powerMontDepth, Modular.montMulDepth]
  omega

/-- The prime test answers what its outcome says, on any scratch. -/
theorem isPrime_computes (fuel : Nat) (a : Limbs w) :
    Work.Computes (isPrime fuel a) (isPrimeDepth a.length) (primeOutcome fuel a) := by
  have hlen := length_trim a
  have hval := val_trim a
  unfold isPrime
  rw [primeOutcome]
  -- the cases of the test: no word, one word, more
  cases htrim : trim a with
  | nil =>
      rw [htrim] at hlen hval
      rw [if_pos (by rw [← hlen]; exact Nat.zero_le _), ← hval]
      exact (Work.computes_pure false).mono (Nat.zero_le _)
  | cons x xs =>
      cases xs with
      | nil =>
          rw [htrim] at hlen hval
          rw [if_pos (by rw [← hlen]; exact Nat.le_refl _), ← hval, val_cons, val_nil,
            Nat.mul_zero, Nat.add_zero]
          exact (Work.computes_pure _).mono (Nat.zero_le _)
      | cons y ys =>
          have hwords : wordLen a = ys.length + 2 := by rw [← hlen, htrim]; rfl
          have hwords' : 2 ≤ wordLen (x :: y :: ys) := by
            rw [← htrim, wordLen_congr hval, hwords]
            omega
          have hroom : isPrimeDepth (x :: y :: ys).length ≤ isPrimeDepth a.length :=
            isPrimeDepth_le (by rw [← htrim, hlen]; exact wordLen_le_length a)
          rw [if_neg (by omega)]
          refine Work.Computes.mono ?_ hroom
          show Work.Computes (if (!isOdd (x :: y :: ys) ||
            !FactorBase.isSieved FactorBase.size (x :: y :: ys)) = true then _ else _) _ _
          split
          · exact (Work.computes_pure false).mono (Nat.zero_le _)
          · next hpass =>
              rw [Bool.or_eq_true, not_or] at hpass
              have hodd : val (x :: y :: ys) % 2 = 1 := by
                rw [← isOdd_iff]
                simpa using hpass.1
              exact (strongTest_computes hodd hwords' fuel _ _).then_pure Prod.fst

/-! ## The outcome is a function of the number -/

theorem primeOutcome_congr (fuel : Nat) {a b : Limbs w} (h : val a = val b) :
    primeOutcome fuel a = primeOutcome fuel b := by
  rw [primeOutcome, primeOutcome, h, wordLen_congr h, trim_congr h]

theorem primeOutcome_error {fuel : Nat} {a : Limbs w} {fault : Fault}
    (h : primeOutcome fuel a = .error fault) : fault = .outOfFuel := by
  rw [primeOutcome] at h
  split at h
  · exact absurd h (by simp)
  · split at h
    · exact absurd h (by simp)
    · exact roundsOutcome_error (Checked.map_eq_error h)

theorem primeOutcome_mono {fuel larger : Nat} {a : Limbs w} {answer : Bool}
    (hle : fuel ≤ larger) (h : primeOutcome fuel a = .ok answer) :
    primeOutcome larger a = .ok answer := by
  rw [primeOutcome] at h ⊢
  split
  · next hwords => rwa [if_pos hwords] at h
  · next hwords =>
      rw [if_neg hwords] at h
      split
      · next hfactor => rwa [if_pos hfactor] at h
      · next hfactor =>
          rw [if_neg hfactor] at h
          obtain ⟨result, hrounds, hanswer⟩ := Checked.map_eq_ok h
          rw [roundsOutcome_mono hle hrounds, ← hanswer]
          rfl

/-- Two answers about one number agree, whatever the fuel. -/
theorem primeOutcome_unique {fuel fuel' : Nat} {a b : Limbs w} {answer answer' : Bool}
    (hval : val a = val b) (h : primeOutcome fuel a = .ok answer)
    (h' : primeOutcome fuel' b = .ok answer') : answer = answer' := by
  rw [primeOutcome_congr fuel hval] at h
  have hmax := primeOutcome_mono (Nat.le_max_left fuel fuel') h
  rw [primeOutcome_mono (Nat.le_max_right fuel fuel') h'] at hmax
  exact (Except.ok.inj hmax).symm

/-! ## Primes are accepted -/

/-- A prime is never rejected. -/
theorem primeOutcome_of_prime {a : Limbs w} (hprime : (val a).Prime) (fuel : Nat) :
    primeOutcome fuel a ≠ .ok false := by
  unfold primeOutcome
  split
  · rw [SingleWord.isPrime_of_prime hprime]
    simp
  · next hwords =>
      have hval := val_trim a
      have hlarge : FactorBase.largest < val a :=
        lt_of_lt_of_le (FactorBase.lt_radix_of_le w (le_refl _)) (radix_le_of_two_words (by omega))
      -- two words hold a number above the factor base, so neither test finds a factor
      have hodd : val (trim a) % 2 = 1 := by
        rw [hval]
        rcases hprime.eq_two_or_odd with h | h
        · rw [h, FactorBase.largest] at hlarge
          omega
        · exact h
      have hsieved : FactorBase.isSieved FactorBase.size (trim a) = true := by
        rw [FactorBase.isSieved_iff, hval]
        exact fun p hp => FactorBase.not_dvd_of_prime hprime hlarge (List.mem_of_mem_take hp)
      rw [if_neg (by rw [(isOdd_iff _).mpr hodd, hsieved]; decide)]
      have hthree : 3 < val (trim a) := by
        rw [hval]
        rw [FactorBase.largest] at hlarge
        omega
      obtain ⟨-, hbound⟩ := ofOdd_bound hodd (by omega)
      obtain ⟨hsplit, -, -⟩ := ofOdd_split hodd (by omega)
      -- and every witness lies between one and the number
      have hstrong : ∀ x < val (Candidate.ofOdd (trim a)).bound,
          isStrongBase (trim a) (x + 2) = true := by
        intro x hx
        rw [hbound] at hx
        refine decide_eq_true (isStrongTo_of_prime (by rw [hval]; exact hprime) ?_ hsplit)
        exact Nat.not_dvd_of_pos_of_lt (by omega) (by omega)
      have hsource : ∃ octet served, (witnessSource (trim a)).Follows octet served :=
        ⟨_, _, Belt.Generator.follows_start _⟩
      have hrounds := roundsOutcome_ne_false Belt.Generator.serves (by rw [hbound]; omega) hstrong
        fuel (roundsForBits (bitLen (trim a))) hsource
      intro h
      obtain ⟨⟨answer, rest⟩, hout, hfalse⟩ := Checked.map_eq_ok h
      have hfalse : answer = false := hfalse
      exact hrounds rest (hfalse ▸ hout)

/-! ## Certain answers -/

theorem primeOutcome_small {a : Limbs w} (h : val a < SingleWord.trialBound) (fuel : Nat) :
    primeOutcome fuel a = .ok (decide (val a).Prime) := by
  have hwords : wordLen a ≤ 1 := by
    have hbound : SingleWord.trialBound < 2 ^ (w.bits * 1) := by cases w <;> decide
    rw [wordLen_le_iff]
    omega
  have hanswer : SingleWord.isPrime (val a) = decide (val a).Prime := by
    rw [Bool.eq_iff_iff, SingleWord.isPrime_iff h, decide_eq_true_iff]
  unfold primeOutcome
  rw [if_pos hwords, hanswer]

theorem primeOutcome_of_factor {a : Limbs w} (hwords : 2 ≤ wordLen a)
    (h : 2 ∣ val a ∨ ∃ p ∈ FactorBase.primes, p ∣ val a) (fuel : Nat) :
    primeOutcome fuel a = .ok false := by
  have hval := val_trim a
  unfold primeOutcome
  rw [if_neg (by omega), if_pos]
  rw [Bool.or_eq_true, Bool.not_eq_true', Bool.not_eq_true', ← Bool.not_eq_true,
    ← Bool.not_eq_true, isOdd_iff, FactorBase.isSieved_iff, hval]
  rcases h with h | ⟨p, hp, hdvd⟩
  · left
    omega
  · right
    intro hsieved
    refine hsieved p ?_ hdvd
    rw [← FactorBase.length_primes, List.take_length]
    exact hp

/-! ## The answer on scratch words -/

/-- A run answers as the outcome says. -/
theorem isPrime_eq_ok {fuel : Nat} {a scratch rest : Limbs w} {answer : Bool}
    (hdepth : isPrimeDepth a.length ≤ scratch.length)
    (hrun : isPrime fuel a scratch = .ok (answer, rest)) : primeOutcome fuel a = .ok answer := by
  have h := (isPrime_computes fuel a).fst_eq hdepth
  rw [hrun] at h
  exact h.symm

/-- An outcome is the answer of every run. -/
theorem isPrime_of_outcome {fuel : Nat} {a scratch : Limbs w} {answer : Bool}
    (hdepth : isPrimeDepth a.length ≤ scratch.length)
    (hout : primeOutcome fuel a = .ok answer) :
    ∃ rest, isPrime fuel a scratch = .ok (answer, rest) := by
  have h := isPrime_computes fuel a scratch hdepth
  rw [hout] at h
  obtain ⟨rest, hrun, -, -⟩ := h
  exact ⟨rest, hrun⟩

/-- On a prime the only answer is yes. -/
theorem primeOutcome_of_answer {fuel : Nat} {a b scratch rest : Limbs w} {answer : Bool}
    (hval : val b = val a) (hprime : (val a).Prime)
    (hdepth : isPrimeDepth a.length ≤ scratch.length)
    (hrun : isPrime fuel a scratch = .ok (answer, rest)) : primeOutcome fuel b = .ok true := by
  have hout := isPrime_eq_ok hdepth hrun
  rw [primeOutcome_congr fuel hval, hout]
  cases answer with
  | true => rfl
  | false => exact absurd hout (primeOutcome_of_prime hprime fuel)

/-- Some run of the prime test on the number `x` says yes. -/
def Accepted (w : Width) (x : Nat) : Prop :=
  ∃ (fuel : Nat) (a scratch rest : Limbs w), val a = x ∧
    isPrimeDepth a.length ≤ scratch.length ∧ isPrime fuel a scratch = .ok (true, rest)

/-- Some run of the prime test on the number `x` uses up its fuel. -/
def Unanswered (w : Width) (fuel x : Nat) : Prop :=
  ∃ a scratch : Limbs w, val a = x ∧ isPrimeDepth a.length ≤ scratch.length ∧
    isPrime fuel a scratch = .error .outOfFuel

theorem accepted_of_outcome {fuel : Nat} {a : Limbs w} (h : primeOutcome fuel a = .ok true) :
    Accepted w (val a) := by
  have hdepth : isPrimeDepth a.length ≤ (zeros (isPrimeDepth a.length) : Limbs w).length := by
    rw [length_zeros]
  obtain ⟨rest, hrun⟩ := isPrime_of_outcome hdepth h
  exact ⟨fuel, a, _, rest, rfl, hdepth, hrun⟩

theorem not_accepted_of_outcome {fuel : Nat} {a : Limbs w}
    (h : primeOutcome fuel a = .ok false) : ¬ Accepted w (val a) := by
  rintro ⟨fuel', b, scratch, rest, hval, hdepth, hrun⟩
  exact absurd (primeOutcome_unique hval.symm h (isPrime_eq_ok hdepth hrun)) (by decide)

theorem unanswered_of_outcome {fuel : Nat} {a : Limbs w} {fault : Fault}
    (h : primeOutcome fuel a = .error fault) : Unanswered w fuel (val a) := by
  have hdepth : isPrimeDepth a.length ≤ (zeros (isPrimeDepth a.length) : Limbs w).length := by
    rw [length_zeros]
  have hrun := isPrime_computes fuel a _ hdepth
  rw [h] at hrun
  exact ⟨a, _, rfl, hdepth, primeOutcome_error h ▸ hrun⟩

/-- In the range of trial division the primes are accepted. -/
theorem accepted_iff_prime {x : Nat} (hx : x < SingleWord.trialBound) :
    Accepted w x ↔ x.Prime := by
  constructor
  · rintro ⟨fuel, a, scratch, rest, rfl, hdepth, hrun⟩
    have hout := isPrime_eq_ok hdepth hrun
    rw [primeOutcome_small hx] at hout
    exact decide_eq_true_iff.mp (Except.ok.inj hout)
  · intro hprime
    have hfits : x < 2 ^ (w.bits * 1) :=
      lt_of_lt_of_le hx (by cases w <;> decide)
    have hval : val (ofNat 1 x : Limbs w) = x := val_ofNat_of_lt hfits
    have hout : primeOutcome 0 (ofNat 1 x : Limbs w) = .ok true := by
      rw [primeOutcome_small (by rw [hval]; exact hx), hval, decide_eq_true hprime]
    rw [← hval]
    exact accepted_of_outcome hout

/-- In the range of trial division every test answers. -/
theorem not_unanswered {fuel x : Nat} (hx : x < SingleWord.trialBound) :
    ¬ Unanswered w fuel x := by
  rintro ⟨a, scratch, rfl, hdepth, hrun⟩
  obtain ⟨rest, hanswer⟩ := isPrime_of_outcome hdepth (primeOutcome_small hx fuel)
  rw [hrun] at hanswer
  exact absurd hanswer (by simp)

/-- The prime test on a number of any room and with scratch enough.  Nothing but
the fuel for its draws can be missing.  A prime is never rejected; below the
square of the largest base prime the answer is exact, and a factor two or a
factor in the base is found in a number of two words or more, without any fuel.
Runs on the same number agree, whatever the room, the fuel and the scratch. -/
theorem isPrime_answers (fuel : Nat) (a scratch : Limbs w)
    (hdepth : isPrimeDepth a.length ≤ scratch.length) :
    (∀ fault, isPrime fuel a scratch = .error fault → fault = .outOfFuel) ∧
    ((val a).Prime → ∀ answer rest, isPrime fuel a scratch = .ok (answer, rest) →
      answer = true) ∧
    (val a < 8167 ^ 2 →
      ∃ rest, isPrime fuel a scratch = .ok (decide (val a).Prime, rest)) ∧
    (2 ≤ wordLen a → (2 ∣ val a ∨ ∃ p ∈ FactorBase.primes, p ∣ val a) →
      ∃ rest, isPrime fuel a scratch = .ok (false, rest)) ∧
    (∀ (fuel' : Nat) (b scratch' : Limbs w) (answer answer' : Bool) (rest rest' : Limbs w),
      val b = val a → isPrimeDepth b.length ≤ scratch'.length →
      isPrime fuel a scratch = .ok (answer, rest) →
      isPrime fuel' b scratch' = .ok (answer', rest') → answer' = answer) := by
  refine ⟨?_, ?_, ?_, ?_, ?_⟩
  · intro fault hrun
    have h := (isPrime_computes fuel a).fst_eq hdepth
    rw [hrun] at h
    exact primeOutcome_error h.symm
  · intro hprime answer rest hrun
    have hout := isPrime_eq_ok hdepth hrun
    cases answer with
    | true => rfl
    | false => exact absurd hout (primeOutcome_of_prime hprime fuel)
  · intro hsmall
    exact isPrime_of_outcome hdepth (primeOutcome_small hsmall fuel)
  · intro hwords hfactor
    exact isPrime_of_outcome hdepth (primeOutcome_of_factor hwords hfactor fuel)
  · intro fuel' b scratch' answer answer' rest rest' hval hdepth' hrun hrun'
    exact primeOutcome_unique hval (isPrime_eq_ok hdepth' hrun') (isPrime_eq_ok hdepth hrun)

/-- Seven, in two words of which the upper one is zero; a multiple of three of two
significant words, refused without fuel; and a Mersenne prime of two words, which no run
refuses. -/
theorem isPrime_answers_two_words :
    isPrimeDepth ([7, 0] : Limbs .w32).length ≤ (zeros 22 : Limbs .w32).length ∧
      (∃ rest, isPrime 0 ([7, 0] : Limbs .w32) (zeros 22) = .ok (true, rest)) ∧
      (2 ≤ wordLen ([3, 3] : Limbs .w32) ∧
        ∃ rest, isPrime 0 ([3, 3] : Limbs .w32) (zeros 22) = .ok (false, rest)) ∧
      2 ≤ wordLen ([0xffffffff, 0x1fffffff] : Limbs .w32) ∧
        ∀ fuel answer rest,
          isPrime fuel ([0xffffffff, 0x1fffffff] : Limbs .w32) (zeros 22) = .ok (answer, rest) →
            answer = true := by
  have hdepth : isPrimeDepth ([7, 0] : Limbs .w32).length ≤ (zeros 22 : Limbs .w32).length := by
    decide
  have hmersenne : (val ([0xffffffff, 0x1fffffff] : Limbs .w32)).Prime := by
    have hval : val ([0xffffffff, 0x1fffffff] : Limbs .w32) = mersenne 61 := by decide
    rw [hval]
    exact lucas_lehmer_sufficiency 61 (by norm_num) (by norm_num)
  obtain ⟨-, -, hsmall, -, -⟩ := isPrime_answers 0 ([7, 0] : Limbs .w32) (zeros 22) hdepth
  obtain ⟨-, -, -, hfactor, -⟩ := isPrime_answers 0 ([3, 3] : Limbs .w32) (zeros 22) hdepth
  refine ⟨hdepth, ?_, ⟨by decide, hfactor (by decide) (.inr ⟨3, ?_, ?_⟩)⟩, by decide, ?_⟩
  · have hval : val ([7, 0] : Limbs .w32) = 7 := by decide
    rw [hval, decide_eq_true (by decide : Nat.Prime 7)] at hsmall
    exact hsmall (by decide)
  · exact (FactorBase.mem_primes_iff 3).mpr ⟨by decide, by decide, by decide⟩
  · exact ⟨4294967297, by decide⟩
  · intro fuel
    exact (isPrime_answers fuel ([0xffffffff, 0x1fffffff] : Limbs .w32) (zeros 22) hdepth).2.1
      hmersenne

end CryptoPrimes.Prime
