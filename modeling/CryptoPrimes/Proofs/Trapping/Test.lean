import CryptoPrimes.Proofs.Belt.Stream
import CryptoPrimes.Proofs.Prime.Test
import CryptoPrimes.Proofs.Trapping.Rounds

/-!
# The trapping prime test does not trap

The witnesses of a prime test come from a generator that copies its blocks by
checked ranges.  A generator that follows a stream serves every request and goes
on following it, so it can be asked without faults.
-/

namespace CryptoPrimes.Trapping

open Limbs CryptoPrimes.Modular Belt

variable {w : Width} {a : Limbs w}

/-! ## The source of witnesses -/

theorem absorbWords_eq {state : Hasher} {origin : Chain} {message : Octets}
    (h : Represents state origin message) (a : Limbs w) :
    ∃ next, absorbWords state a = .ok next ∧
      Represents next origin (message ++ toOctets a) := by
  induction a generalizing state message with
  | nil =>
      refine ⟨state, rfl, ?_⟩
      rwa [show toOctets ([] : Limbs w) = [] from rfl, List.append_nil]
  | cons x xs ih =>
      obtain ⟨middle, hupdate, hmiddle⟩ := h.update x.toOctets
      obtain ⟨next, hrest, hnext⟩ := ih hmiddle
      refine ⟨next, ?_, ?_⟩
      · rw [absorbWords, hupdate, Checked.ok_bind, hrest]
      · rwa [show toOctets (x :: xs) = x.toOctets ++ toOctets xs from rfl, ← List.append_assoc]

theorem digestOf_start (message : Octets) : Chain.start.digestOf message = Belt.hash message :=
  (hash_eq_reference message).symm

theorem witnessSource_eq (a : Limbs w) : witnessSource a = .ok (Prime.witnessSource a) := by
  obtain ⟨absorbed, habsorb, hseed⟩ := absorbWords_eq Represents.start a
  obtain ⟨keyed, hupdate, hkey⟩ := Represents.start.update (Belt.hash (toOctets a)).octets
  rw [List.nil_append] at hseed hkey
  have hfirst := hseed.finish
  have hsecond := hkey.finish
  rw [digestOf_start] at hfirst hsecond
  rw [witnessSource, habsorb, Checked.ok_bind, hfirst, Checked.ok_bind, hupdate, Checked.ok_bind,
    hsecond]
  rfl

/-- A generator on a stream serves what it is asked for. -/
theorem faithful_tryTake : Faithful Generator.tryTake
    fun g => ∃ octet served, Generator.Follows g octet served := by
  rintro g n ⟨octet, served, h⟩
  obtain ⟨next, htake, hnext, -⟩ := h.checkedTake n
  have hrun : g.tryTake n = .ok (some (Generator.window octet served n), next) := by
    rw [Generator.tryTake, htake]
    rfl
  have hrequest : ByteSource.request g n = (some (Generator.window octet served n), next) := by
    show (g.tryTake n).toOption.getD (none, g) = _
    rw [hrun]
    rfl
  rw [hrun, hrequest]
  exact ⟨rfl, octet, served + n, hnext⟩

/-! ## The prime test -/

theorem testWords_computes (hbits : w.bits * a.length < sizeLimit) (hwords : 2 ≤ wordLen a)
    (fuel : Nat) :
    Work.Computes (testWords fuel a) (Prime.isPrimeDepth a.length)
      (if !isOdd a || !FactorBase.isSieved FactorBase.size a then .ok false
      else (Prime.roundsOutcome (Prime.isStrongBase a) fuel (Prime.Candidate.ofOdd a).bound
        (Prime.roundsForBits (Limbs.bitLen a)) (Prime.witnessSource a)).map Prod.fst) := by
  obtain ⟨x, xs, rfl⟩ : ∃ x xs, a = x :: xs := by
    cases a with
    | nil => exact absurd hwords (Nat.not_succ_le_zero 1)
    | cons x xs => exact ⟨x, xs, rfl⟩
  have hhead : wordAt (x :: xs) 0 = .ok x := rfl
  have hparity : isOdd (x :: xs) = x.isOdd := rfl
  have hsieve := isSieved_eq (Nat.le_refl FactorBase.size) (x :: xs)
  generalize x :: xs = a at *
  refine .lift_bind hhead ?_
  rw [hparity]
  cases hodd : x.isOdd with
  | false => exact (Work.computes_pure _).mono (Nat.zero_le _)
  | true =>
      refine .lift_bind hsieve ?_
      cases FactorBase.isSieved FactorBase.size a with
      | false => exact (Work.computes_pure _).mono (Nat.zero_le _)
      | true =>
          have hodd' := (isOdd_iff a).mp (hparity.trans hodd)
          have hsource : ∃ octet served, Generator.Follows (Prime.witnessSource a) octet served :=
            ⟨_, _, Generator.follows_start _⟩
          obtain ⟨out, hstrong, -⟩ := strongTestFrom_agree faithful_tryTake hbits fuel
            (Prime.roundsForBits (Limbs.bitLen a)) hsource
          rw [hstrong.plain.unique (Prime.strongTest_computes hodd' hwords fuel _ _)] at hstrong
          refine .lift_bind (bitLen_eq hbits) (.lift_bind (witnessSource_eq a) ?_)
          exact hstrong.trapping.then_pure Prod.fst

theorem isPrime_agree (hbits : w.bits * a.length < sizeLimit) (fuel : Nat) :
    Work.Agree (Prime.isPrime fuel a) (isPrime fuel a) (Prime.isPrimeDepth a.length)
      (Prime.primeOutcome fuel a) := by
  refine ⟨Prime.isPrime_computes fuel a, ?_⟩
  have hlen := length_trim a
  have hval := val_trim a
  have hle : (trim a).length ≤ a.length := hlen.trans_le (wordLen_le_length a)
  rw [Prime.primeOutcome, ← hlen, ← hval]
  refine .lift_bind (slice_significant a) ?_
  -- the cases of the test: no word, one word, more
  cases htrim : trim a with
  | nil => exact (Work.computes_pure false).mono (Nat.zero_le _)
  | cons x xs =>
      rw [htrim] at hlen hval hle
      cases xs with
      | nil =>
          have hx : val [x] = x.toNat := by simp
          rw [if_pos (show [x].length ≤ 1 from Nat.le_refl _), hx, ← SingleWord.isPrime_eq]
          exact (Work.computes_lift _).mono (Nat.zero_le _)
      | cons y ys =>
          have hwords : 2 ≤ wordLen (x :: y :: ys) := by
            rw [wordLen_congr hval, ← hlen]
            exact Nat.le_add_left 2 _
          rw [if_neg (by simp)]
          exact (testWords_computes ((Nat.mul_le_mul_left _ hle).trans_lt hbits) hwords fuel).mono
            (Prime.isPrimeDepth_le hle)

theorem onlyFuel_primeOutcome (fuel : Nat) (a : Limbs w) : OnlyFuel (Prime.primeOutcome fuel a) :=
  fun _ h => Prime.primeOutcome_error h

theorem isSafePrime_agree (hbits : w.bits * a.length < sizeLimit) (fuel : Nat) :
    ∃ out, Work.Agree (Prime.isSafePrime fuel a) (isSafePrime fuel a)
      (Prime.isSafePrimeDepth a.length) out ∧ OnlyFuel out := by
  have htest := isPrime_agree hbits fuel
  have hfuel := onlyFuel_primeOutcome fuel a
  rw [Prime.isSafePrime, isSafePrime]
  cases hout : Prime.primeOutcome fuel a with
  | error fault =>
      rw [hout] at htest hfuel
      exact ⟨_, .withBuffer fun _ _ => ⟨[], htest.bind_error⟩, hfuel⟩
  | ok answer =>
      rw [hout] at htest
      cases answer with
      | false =>
          refine ⟨.ok false, .withBuffer fun buffer _ => ⟨buffer, htest.bind ?_⟩, onlyFuel_ok _⟩
          exact (Work.agree_pure _).mono (Nat.zero_le _)
      | true =>
          have hhalf : (Limbs.shiftRight (subWord a 1).1 1).length = a.length := by
            rw [length_shiftRight, length_subWord]
          have hsecond :=
            isPrime_agree (a := Limbs.shiftRight (subWord a 1).1 1) (by rwa [hhalf]) fuel
          rw [hhalf] at hsecond
          refine ⟨Prime.primeOutcome fuel (Limbs.shiftRight (subWord a 1).1 1),
            .withBuffer fun buffer hbuffer =>
              ⟨Limbs.shiftRight (subWord a 1).1 1, htest.bind ?_⟩, onlyFuel_primeOutcome _ _⟩
          refine .settle (write_whole hbuffer rfl) (.settle (shiftRight_eq _ _) ?_)
          exact hsecond.then_pure _

end CryptoPrimes.Trapping
