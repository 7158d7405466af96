import CryptoPrimes.Proofs.Prime.Extend
import CryptoPrimes.Proofs.Trapping.Division
import CryptoPrimes.Proofs.Trapping.Next

/-!
# The trapping search for a given factor does not trap

The working numbers have a word more than the operands, which need not be a word
the bit lengths have room for.  But what is measured in bits fits the result: the
number of multipliers and every candidate have no more bits than asked for.
-/

namespace CryptoPrimes.Trapping

open Limbs

variable {w : Width} {σ : Type} [ByteSource σ]

/-! ## The range of multipliers -/

theorem eq_zeros {a : Limbs w} (h : isZero a = true) : a = zeros a.length :=
  val_inj (length_zeros _).symm ((isZero_iff.mp h).trans (val_zeros _).symm)

theorem atLeastOne_eq {a : Limbs w} {m : Nat} (hlen : a.length = m) (hm : m ≠ 0) :
    atLeastOne a = .ok (if isZero a then one m else a) := by
  rw [atLeastOne]
  by_cases hzero : isZero a = true
  · rw [if_pos hzero, if_pos hzero, eq_zeros hzero, hlen, setWord_zeros hm, one_eq_extend hm]
  · rw [if_neg hzero, if_neg hzero]
    rfl

theorem multipliers_agree {m bits : Nat} {q : Limbs w} (hlen : q.length ≤ m)
    (hfits : Prime.Fits w m bits (val q)) (hsize : m + 1 < sizeLimit) :
    ∃ range : Prime.Multipliers w, Work.Agree (Prime.multipliers m bits q) (multipliers m bits q)
      (divRemDepth m m) (.ok range) ∧ range.Spans m bits (val q) := by
  have hbits := hfits.two_le_bits
  have hbitslt := hfits.bits_lt
  obtain ⟨htwo, hdouble⟩ := hfits.pow_eq
  have hm : m ≠ 0 := by
    rintro rfl
    simp at hbitslt
  obtain ⟨hsteplen, hstep⟩ := Prime.doubled_spec hlen hfits.step_lt
  obtain ⟨lower, hlower, hlowerlen, -⟩ := Prime.powerLess_eq (w := w) (m := m) (bits - 1) (x := 1)
    (by omega) (by rw [Word.toNat_one]; omega)
  obtain ⟨upper, hupper, hupperlen, -⟩ := Prime.powerLess_eq (w := w) (m := m) bits (x := 2)
    hbitslt (by rw [Word.toNat_two]; omega)
  have hdouble : shlCarry (extend q m) 1 = .ok (shlWithin (extend q m) 1) :=
    shlCarry_eq _ (by cases w <;> decide)
  have hq := hfits.q_pos
  generalize hsteps : shlWithin (extend q m) 1 = step at *
  have hwords : wordLen step.1 ≠ 0 := by
    rw [ne_eq, wordLen_eq_zero_iff]
    omega
  have hroom (a : Limbs w) (ha : a.length = m) : wordLen a + 1 ≤ m + wordLen step.1 := by
    have := wordLen_le_length a
    omega
  obtain ⟨low, lowRem, hlow, hlowlen⟩ := divRem_agree hwords (fun _ => hroom lower hlowerlen)
    (by omega)
  obtain ⟨high, highRem, hhigh, -⟩ := divRem_agree hwords (fun _ => hroom upper hupperlen)
    (by omega)
  rw [hsteplen, hlowerlen] at hlow
  rw [hsteplen, hupperlen] at hhigh
  have hround : (if isZero lowRem then low else (addWord low 1).1).length = m := by
    split
    · exact hlowlen
    · exact (length_addWord _ _).trans hlowlen
  have hagree : Work.Agree (Prime.multipliers m bits q) (multipliers m bits q) (divRemDepth m m)
      (.ok ⟨step.1, if isZero (if isZero lowRem then low else (addWord low 1).1) then one m
        else if isZero lowRem then low else (addWord low 1).1, high⟩) := by
    rw [Prime.multipliers, multipliers, hsteps]
    refine .settle (write_zeros rfl hlen) (.settle hdouble ?_)
    refine .settle (difference_eq (by omega)) (.settle_both hlower hlower ?_)
    refine hlow.bind ?_
    refine .settle (atLeastOne_eq hround hm) (.settle_both hupper hupper ?_)
    exact hhigh.bind ((Work.agree_pure _).mono (Nat.zero_le _))
  obtain ⟨range, hplain, hspans⟩ := Prime.multipliers_computes hlen hfits
  rw [hagree.plain.unique hplain] at hagree
  exact ⟨range, hagree, hspans⟩

/-! ## One trial -/

section Trial

variable {range : Prime.Multipliers w} {m bits q : Nat} (hspans : range.Spans m bits q)

include hspans

theorem count_eq : count m range = .ok range.count := by
  rw [count, sub_eq hspans.greatest_length.symm
    (hspans.greatest_length.trans hspans.least_length.symm)]
  rfl

theorem candidate_eq {x : Limbs w} (hx : x.length = m) (hsize : 2 * m < sizeLimit) :
    candidate m range x = .ok (range.candidate x) := by
  have hlen : x.length = range.least.length := hx.trans hspans.least_length.symm
  have hsum := (length_addCarry hlen false).trans hx
  have hroom : 2 * m = (addCarry x range.least false).1.length + range.step.length := by
    rw [hsum, hspans.step_length, Nat.two_mul]
  rw [candidate, add_eq hx.symm hlen, Checked.ok_bind, checkedSize_eq hsize, Checked.ok_bind, hroom,
    mul_eq (hroom ▸ hsize)]
  rfl

/-- There are fewer multipliers than numbers of the bits asked for. -/
theorem val_count_lt (hfits : Prime.Fits w m bits q)
    (hle : Prime.leastMultiplier bits q ≤ Prime.greatestMultiplier bits q) :
    val range.count < 2 ^ bits := by
  have hcount := (Prime.count_spec hspans hfits hle).2
  have hleast := Prime.leastMultiplier_pos bits q
  have hgreatest : Prime.greatestMultiplier bits q ≤ 2 ^ bits - 2 := Nat.div_le_self _ _
  have hpow := hfits.pow_eq
  omega

end Trial

theorem survivesSieve_eq {k : Nat} (hk : k ≤ FactorBase.size) (a : Limbs w) :
    survivesSieve k a = .ok (Prime.survivesSieve k a) := by
  rw [survivesSieve, Prime.survivesSieve]
  cases Prime.isSmall a with
  | true => rfl
  | false => exact isSieved_eq hk a

/-- A number of no more bits than `n` words have needs no more of them. -/
theorem wordLen_le_of_lt {a : Limbs w} {bits n : Nat} (h : val a < 2 ^ bits)
    (hn : bits ≤ n * w.bits) : wordLen a ≤ n := by
  rw [wordLen_le_iff, Nat.mul_comm]
  exact h.trans_le (Nat.pow_le_pow_right (by decide) hn)

/-! ## All trials -/

theorem runTrials_agree (limits : Prime.TrialLimits) (hk : limits.sieve ≤ FactorBase.size)
    {range : Prime.Multipliers w} {m q : Nat} (hspans : range.Spans m limits.bits q)
    (hfits : Prime.Fits w m limits.bits q)
    (hle : Prime.leastMultiplier limits.bits q ≤ Prime.greatestMultiplier limits.bits q)
    {p : Limbs w} (hp : limits.bits ≤ p.length * w.bits) (hroom : p.length ≤ m)
    (hbits : w.bits * p.length < sizeLimit) (hsize : 2 * m < sizeLimit) (remaining trial : Nat)
    (source : σ) :
    EndAlike p.length (Prime.runTrials limits range p remaining trial source)
      (runTrials limits m range range.count p remaining trial source) := by
  have hcountlen := (Prime.count_spec hspans hfits hle).1
  -- neither the number of multipliers nor a candidate has more bits than asked for
  have hfew (a : Limbs w) (ha : val a < 2 ^ limits.bits) : w.bits * wordLen a < sizeLimit :=
    (Nat.mul_le_mul_left _ (wordLen_le_of_lt ha hp)).trans_lt hbits
  have hcountlt := val_count_lt hspans hfits hle
  induction remaining generalizing trial source with
  | zero => exact (EndAlike.result _).after_emit _
  | succ remaining ih =>
      have hsample := sampleBelow_eq faithful_ask limits.fuel (m := range.count)
        (by rw [hcountlen]; omega) (hfew _ hcountlt) source trivial
      have hfuel := onlyFuel_sampleBelow limits.fuel range.count source
      have hbelow := @draw_lt w σ _ limits.fuel range.count
      rw [hcountlen] at hsample hfuel hbelow
      rw [Prime.runTrials, runTrials, hcountlen, hsample.1]
      refine EndAlike.bind (Search.agree_quietly (Work.agree_lift _ _)) hfuel ?_
      rintro ⟨_ | x, rest⟩ hdraw
      · exact (EndAlike.result _).after_emit _
      obtain ⟨hxlen, hxlt⟩ := hbelow hdraw
      obtain ⟨-, hbitLen⟩ := Prime.bitLen_candidate hspans hfits hle hxlen hxlt
      have htakelen := (Prime.take_candidate hspans hbitLen hp hroom hxlen).1
      have hlong := Prime.length_candidate hspans hxlen
      have hcandlt : val (range.candidate x) < 2 ^ limits.bits := by
        rw [← Nat.size_le, ← bitLen_eq_size]
        exact hbitLen.le
      have hslice :
          slice (range.candidate x) 0 p.length = .ok ((range.candidate x).take p.length) :=
        slice_front (by omega)
      dsimp only
      rw [attempt_bind (candidate_eq hspans hxlen hsize), Search.ensure_bind hbitLen,
        attempt_bind (bitLen_of_wordLen (hfew _ hcandlt)), Search.ensure_bind hbitLen,
        attempt_bind (survivesSieve_eq hk _)]
      cases Prime.survivesSieve limits.sieve (range.candidate x) with
      | false => exact ih (trial + 1) rest
      | true =>
          have htest := Search.agree_quietly
            (isPrime_agree (a := (range.candidate x).take p.length) (by rwa [htakelen]) limits.fuel)
          rw [htakelen] at htest
          simp only [if_true, attempt_bind hslice, attempt_bind (write_whole rfl htakelen)]
          refine (EndAlike.bind htest (onlyFuel_primeOutcome _ _) fun found _ => ?_).after_emit _
          cases found with
          | true => exact (EndAlike.result _).after_emit _
          | false => exact ih (trial + 1) rest

/-! ## The whole search -/

theorem isGT_compare (a b : Limbs w) : (Limbs.compare a b).isGT = less b a := by
  rw [less, compare_eq, compare_eq, ← Nat.compare_swap, Ordering.isGT_swap]

theorem extendPrime_agree {k bits : Nat} {p q : Limbs w} (fuel trials : Nat) (source : σ)
    (hk : k ≤ FactorBase.size) (hp : w.bits * p.length < sizeLimit)
    (hq : w.bits * q.length < sizeLimit) :
    ∃ events result, Search.Agree (Prime.extendPrime fuel p bits q trials k source)
      (extendPrime fuel p bits q trials k source) (Prime.extendPrimeDepth p.length q.length) events
      result ∧ OnlyFuel result := by
  have hwidth : p.length * w.bits < sizeLimit := by rwa [Nat.mul_comm]
  rw [Prime.extendPrime, extendPrime, Search.ensure_bind hk, Search.ensure_bind hk,
    attempt_bind (checkedSize_eq hwidth)]
  by_cases hargs : bits < 2 ∨ p.length * w.bits < bits ∨ isZero q = true
  · rw [if_pos hargs, if_pos hargs]
    exact ⟨_, _, Search.agree_pure _ _, onlyFuel_ok _⟩
  obtain ⟨hbits, hfit, hqne⟩ : 2 ≤ bits ∧ bits ≤ p.length * w.bits ∧ val q ≠ 0 := by
    rw [isZero_iff] at hargs
    omega
  have hfits := Prime.fits_workingWords hbits hfit hqne
  obtain ⟨hroom, hqroom⟩ := Prime.le_workingWords p.length q.length
  have hsize : 2 * Prime.workingWords p.length q.length + 1 < sizeLimit := by
    have := length_lt_of_bits hp
    have := length_lt_of_bits hq
    unfold Prime.workingWords sizeLimit
    omega
  rw [if_neg hargs, if_neg hargs, Prime.extendPrimeDepth]
  change ∃ events result, Search.Agree _ (attempt
    (checkedSize (Prime.workingWords p.length q.length)) >>= _) _ events result ∧ OnlyFuel result
  rw [attempt_bind (checkedSize_eq (by omega))]
  generalize Prime.workingWords p.length q.length = m at *
  have hwords : 6 * m + 2 * m = 8 * m := by omega
  rw [attempt_bind (checkedSize_eq (by omega)), hwords]
  obtain ⟨range, hrange, hspans⟩ := multipliers_agree hqroom hfits (by omega)
  have hrange := (Search.agree_quietly hrange).mono
    (Nat.le_max_left (divRemDepth m m) (Prime.isPrimeDepth p.length))
  have hcompare := compareSame_eq (hspans.least_length.trans hspans.greatest_length.symm)
  have hdepth := Nat.le_max_right (divRemDepth m m) (Prime.isPrimeDepth p.length)
  cases hempty : less range.greatest range.least with
  | true =>
      refine ⟨[.emptyRange bits], .ok ((false, p), source), .withBuffer fun _ _ =>
        ⟨range.step, hrange.bind_silent ?_⟩, onlyFuel_ok _⟩
      rw [hempty, attempt_bind hcompare, isGT_compare, hempty]
      exact (Search.agree_pure _ _).after_emit _
  | false =>
      have hle : Prime.leastMultiplier bits (val q) ≤ Prime.greatestMultiplier bits (val q) := by
        rw [← hspans.least_val, ← hspans.greatest_val, ← not_lt, ← less_iff, hempty]
        exact Bool.false_ne_true
      obtain ⟨events, result, htrials, hfuel⟩ := runTrials_agree ⟨trials, k, bits, fuel⟩ hk hspans
        hfits hle hfit hroom hp (by omega) trials 1 source
      refine ⟨events, result, .withBuffer fun _ _ => ⟨range.step, hrange.bind_silent ?_⟩, hfuel⟩
      rw [hempty, attempt_bind hcompare, isGT_compare, hempty]
      simp only [Bool.false_eq_true, if_false, attempt_bind (count_eq hspans)]
      exact (htrials.mono hdepth).then_pure _

end CryptoPrimes.Trapping
