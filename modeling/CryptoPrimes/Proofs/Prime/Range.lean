import CryptoPrimes.Proofs.Prime.Extend
import Mathlib.Data.Set.Function

/-!
# The numbers a search with a given factor can reach

The search for a prime `2 * r * q + 1` of exactly `bits` bits draws a multiplier
between two ends that come from divisions.  Here the ends are shown to be exact.

* `mem_admissible_iff` — the multipliers between the ends give exactly the
  numbers of that length that are 1 modulo `2 * q`;
* `bijOn_admissible` — each of them comes from exactly one draw;
* `extendPrime_reaches` — a prime among them is found by the first trial, if the
  source serves the octets of its draw.

`extendPrime_range_exact` is all of this about one search.
-/

namespace CryptoPrimes.Prime

open Limbs

variable {w : Width} {σ : Type} [ByteSource σ]

/-! ## The ends of the range -/

/-- The numbers of `bits` bits that are 1 modulo twice the factor. -/
def admissible (bits q : Nat) : Set Nat := {x | Nat.size x = bits ∧ x ≡ 1 [MOD 2 * q]}

/-- A number of two bits or more that is 1 modulo twice the factor has a
multiplier, and both its ends hold. -/
theorem multiplier_of_admissible {bits q x : Nat} (hbits : 2 ≤ bits) (hq : 0 < q)
    (hx : x ∈ admissible bits q) :
    ∃ r, leastMultiplier bits q ≤ r ∧ r ≤ greatestMultiplier bits q ∧ x = 2 * r * q + 1 := by
  obtain ⟨hsize, hmod⟩ := hx
  have hlower : 2 ^ (bits - 1) ≤ x := by
    rw [← Nat.lt_size]
    omega
  have hupper : x < 2 ^ bits := by
    rw [← Nat.size_le]
    exact hsize.le
  have htwo : 2 ≤ 2 ^ (bits - 1) := by
    calc 2 = 2 ^ 1 := rfl
      _ ≤ 2 ^ (bits - 1) := Nat.pow_le_pow_right (by decide) (by omega)
  obtain ⟨r, hr⟩ := (Nat.modEq_iff_dvd' (by omega : 1 ≤ x)).mp hmod.symm
  have hstep : r * (2 * q) = 2 * r * q := by ring
  rw [Nat.mul_comm] at hr
  refine ⟨r, ?_, ?_, by omega⟩
  · -- one is no number of two bits, so the multiplier is not zero
    have hpos : r ≠ 0 := by
      rintro rfl
      omega
    apply max_le (by omega)
    apply (Nat.div_le_iff_le_mul_add_pred (by omega : 0 < 2 * q)).mpr
    rw [Nat.mul_comm (2 * q) r]
    omega
  · apply (Nat.le_div_iff_mul_le (by omega)).mpr
    omega

theorem mem_admissible_iff {bits q x : Nat} (hbits : 2 ≤ bits) (hq : 0 < q) :
    x ∈ admissible bits q ↔
      ∃ r, leastMultiplier bits q ≤ r ∧ r ≤ greatestMultiplier bits q ∧ x = 2 * r * q + 1 := by
  constructor
  · exact multiplier_of_admissible hbits hq
  · rintro ⟨r, hlo, hhi, rfl⟩
    refine ⟨size_candidate hbits hq hlo hhi, ?_⟩
    have hstep : 2 * r * q = 2 * q * r := by ring
    rw [hstep]
    exact Nat.ModEq.symm ((Nat.modEq_iff_dvd' (by omega)).mpr ⟨r, by omega⟩)

/-- Different multipliers give different numbers. -/
theorem candidate_injective {q : Nat} (hq : 0 < q) {r s : Nat}
    (h : 2 * r * q + 1 = 2 * s * q + 1) : r = s := by
  have hcancel : 2 * r = 2 * s := Nat.eq_of_mul_eq_mul_right hq (Nat.succ.inj h)
  omega

/-- Draws below the number of multipliers and admissible numbers are the same
thing. -/
theorem bijOn_admissible {bits q : Nat} (hbits : 2 ≤ bits) (hq : 0 < q) :
    Set.BijOn (fun d => 2 * (leastMultiplier bits q + d) * q + 1)
      (Set.Iio (greatestMultiplier bits q + 1 - leastMultiplier bits q)) (admissible bits q) := by
  refine ⟨?_, ?_, ?_⟩
  · intro d hd
    rw [Set.mem_Iio] at hd
    exact (mem_admissible_iff hbits hq).mpr ⟨_, by omega, by omega, rfl⟩
  · intro d _ e _ h
    have hsum := candidate_injective hq h
    omega
  · intro x hx
    obtain ⟨r, hlo, hhi, rfl⟩ := (mem_admissible_iff hbits hq).mp hx
    refine ⟨r - leastMultiplier bits q, ?_, ?_⟩
    · rw [Set.mem_Iio]
      omega
    · dsimp only
      rw [Nat.add_sub_cancel' hlo]

/-- There is nothing to draw exactly if there is no admissible number. -/
theorem admissible_eq_empty_iff {bits q : Nat} (hbits : 2 ≤ bits) (hq : 0 < q) :
    admissible bits q = ∅ ↔ greatestMultiplier bits q < leastMultiplier bits q := by
  rw [← Set.not_nonempty_iff_eq_empty, ← not_le, not_iff_not]
  constructor
  · rintro ⟨x, hx⟩
    obtain ⟨r, hlo, hhi, -⟩ := (mem_admissible_iff hbits hq).mp hx
    exact hlo.trans hhi
  · intro hle
    exact ⟨_, (mem_admissible_iff hbits hq).mpr ⟨_, le_rfl, hle, rfl⟩⟩

/-! ## The first trial -/

/-- The draw that gives an admissible number. -/
def drawOf (m bits q x : Nat) : Limbs w := ofNat m (x / (2 * q) - leastMultiplier bits q)

section Draw

variable {range : Multipliers w} {m bits q : Nat} (hspans : range.Spans m bits q)
  (hfits : Fits w m bits q)

include hspans hfits

theorem drawOf_spec {x : Nat} (hx : x ∈ admissible bits q) :
    (drawOf m bits q x : Limbs w).length = range.count.length ∧
      val (drawOf m bits q x : Limbs w) < val range.count ∧
      2 * (leastMultiplier bits q + val (drawOf m bits q x : Limbs w)) * q + 1 = x := by
  obtain ⟨r, hlo, hhi, rfl⟩ := (mem_admissible_iff hfits.two_le_bits hfits.q_pos).mp hx
  obtain ⟨hlen, hcount⟩ := count_spec hspans hfits (hlo.trans hhi)
  have hroom := greatest_lt hspans hfits
  rw [hspans.greatest_val] at hroom
  have hq := hfits.q_pos
  have hquotient : (2 * r * q + 1) / (2 * q) = r := by
    have hstep : 2 * r * q = 2 * q * r := by ring
    rw [hstep, Nat.mul_add_div (by omega), Nat.div_eq_of_lt (by omega : 1 < 2 * q), Nat.add_zero]
  have hval : val (drawOf m bits q (2 * r * q + 1) : Limbs w) = r - leastMultiplier bits q := by
    unfold drawOf
    rw [hquotient, val_ofNat_of_lt (by omega)]
  rw [hval, hcount]
  refine ⟨(length_ofNat _ _).trans hlen.symm, by omega, ?_⟩
  rw [Nat.add_sub_cancel' hlo]

end Draw

/-- A prime that the range contains is found by the first trial, if the source
serves the octets of its draw. -/
theorem extendPrime_reaches {bits k fuel trials prime : Nat} {p q : Limbs w}
    (hbits : 2 ≤ bits) (hp : bits ≤ p.length * w.bits) (hq : val q ≠ 0)
    (hk : k ≤ FactorBase.size) (hfuel : 1 ≤ fuel) (htrials : 1 ≤ trials)
    (hmem : prime ∈ admissible bits (val q)) (hprime : prime.Prime)
    (hreturns : ∀ a : Limbs w, val a = prime → primeOutcome fuel a = .ok true) (rest : Octets) :
    ∃ p', p'.length = p.length ∧ val p' = prime ∧
      Search.Computes (extendPrime fuel p bits q trials k (Finite.mk (toOctets
          (drawOf (workingWords p.length q.length) bits (val q) prime : Limbs w) ++ rest)))
        (extendPrimeDepth p.length q.length)
        [.testingDraw 1 bits, .drawFound 1 bits] (.ok ((true, p'), ⟨rest⟩)) := by
  obtain ⟨trials, rfl⟩ := Nat.exists_eq_add_of_le' htrials
  have hfits := fits_workingWords hbits hp hq
  obtain ⟨range, hspans, hopens⟩ := extendPrime_opens (p := p) fuel (trials + 1)
    (Finite.mk (toOctets (drawOf (workingWords p.length q.length) bits (val q) prime : Limbs w) ++
      rest)) hk hbits hp hq
  have hle : leastMultiplier bits (val q) ≤ greatestMultiplier bits (val q) := by
    obtain ⟨r, hlo, hhi, -⟩ := (mem_admissible_iff hbits (Nat.pos_of_ne_zero hq)).mp hmem
    exact hlo.trans hhi
  have hnonempty : ¬ less range.greatest range.least = true := by
    rw [less_iff, hspans.greatest_val, hspans.least_val]
    omega
  rw [if_neg hnonempty] at hopens
  -- the octets are drawn, and the draw gives the prime
  obtain ⟨hlen, hlt, hnumber⟩ := drawOf_spec hspans hfits hmem
  have hdraw := sampleBelow_toOctets hlen hlt hfuel rest
  obtain ⟨hval, hbitLen⟩ := bitLen_candidate hspans hfits hle
    (hlen.trans (count_spec hspans hfits hle).1) hlt
  obtain ⟨htakelen, htake⟩ := take_candidate hspans hbitLen hp (le_workingWords _ _).1
    (hlen.trans (count_spec hspans hfits hle).1)
  have hsurvives := (survivesSieve_iff k (range.candidate
    (drawOf (workingWords p.length q.length) bits (val q) prime))).mpr
      (by rw [hval, hnumber]; exact survives_of_prime k hprime)
  refine ⟨_, htakelen, htake.trans (hval.trans hnumber), hopens _ _ ?_⟩
  apply trial_tested hdraw hbitLen htakelen hsurvives
  rw [hreturns _ (htake.trans (hval.trans hnumber))]
  exact ⟨rfl, rfl⟩

/-! ## The range of a whole search -/

/-- The range of the search for a prime with a given factor is exact.  Between
the two computed ends lie exactly the multipliers of the numbers of `bits` bits
that are 1 modulo `2 * q`; the draws below their count and these numbers are in
bijection, with no carry lost on the way; and the exit for an empty range is taken
exactly if there is no such number.  So every prime among them is what the first
trial finds on some octets, provided the prime test answers on it. -/
theorem extendPrime_range_exact (p q : Limbs w) (bits : Nat) (hbits : 2 ≤ bits)
    (hp : bits ≤ p.length * w.bits) (hq : 1 ≤ val q) :
    let m := workingWords p.length q.length
    let numbers := admissible bits (val q)
    ∃ range : Multipliers w,
      let lo := val range.least
      let hi := val range.greatest
      (∀ scratch : Limbs w, divRemDepth m m ≤ scratch.length →
        ∃ rest, multipliers m bits q scratch = .ok (range, rest)) ∧
      val range.step = 2 * val q ∧
      {x | ∃ r, lo ≤ r ∧ r ≤ hi ∧ x = 2 * r * val q + 1} = numbers ∧
      (lo ≤ hi → range.count.length = m ∧ val range.count = hi - lo + 1) ∧
      Set.BijOn (fun d => 2 * (lo + d) * val q + 1) (Set.Iio (hi + 1 - lo)) numbers ∧
      (∀ x : Limbs w, x.length = m → val x < hi + 1 - lo → range.Exact (val q) x ∧
        ((range.candidate x).take p.length).length = p.length ∧
        val ((range.candidate x).take p.length) = 2 * (lo + val x) * val q + 1) ∧
      ∀ (fuel trials k : Nat) (scratch : Limbs w), k ≤ FactorBase.size →
        extendPrimeDepth p.length q.length ≤ scratch.length →
        (∀ {σ : Type} [ByteSource σ] (source : σ), .emptyRange bits ∈
          ((extendPrime fuel p bits q trials k source).run scratch).events ↔ numbers = ∅) ∧
        ∀ prime ∈ numbers, prime.Prime → 1 ≤ trials → 1 ≤ fuel →
          (∃ (a tested rest : Limbs w) (answer : Bool), val a = prime ∧
            isPrimeDepth a.length ≤ tested.length ∧
            isPrime fuel a tested = .ok (answer, rest)) →
          ∃ octets p' rest, p'.length = p.length ∧ val p' = prime ∧
            (extendPrime fuel p bits q trials k (Finite.mk octets)).run scratch =
              ⟨[.testingDraw 1 bits, .drawFound 1 bits], .ok (((true, p'), ⟨[]⟩), rest)⟩ := by
  intro m numbers
  have hne : val q ≠ 0 := by omega
  have hfits := fits_workingWords hbits hp hne
  obtain ⟨range, hrange, hspans⟩ := multipliers_computes (le_workingWords _ _).2 hfits
  refine ⟨range, ?_⟩
  dsimp only
  rw [hspans.least_val, hspans.greatest_val]
  refine ⟨?_, hspans.step_val, ?_, count_spec hspans hfits, bijOn_admissible hbits hq, ?_, ?_⟩
  · intro scratch hdepth
    obtain ⟨rest, hrun, -, -⟩ := hrange scratch hdepth
    exact ⟨rest, hrun⟩
  · ext x
    exact (mem_admissible_iff hbits hq).symm
  · intro x hxlen hx
    have hle : leastMultiplier bits (val q) ≤ greatestMultiplier bits (val q) := by omega
    obtain ⟨hval, hbitLen⟩ := bitLen_candidate hspans hfits hle hxlen
      (by rw [(count_spec hspans hfits hle).2]; omega)
    obtain ⟨htakelen, htake⟩ :=
      take_candidate hspans hbitLen hp (le_workingWords _ _).1 hxlen
    exact ⟨exact_of_draw hspans hfits hxlen (by omega), htakelen, htake.trans hval⟩
  · intro fuel trials k scratch hk hdepth
    constructor
    · intro σ _ source
      rw [admissible_eq_empty_iff hbits hq]
      by_cases hlt : greatestMultiplier bits (val q) < leastMultiplier bits (val q)
      · have hrun := extendPrime_empty fuel trials source hk hbits hp hne hlt
        rw [(hrun.run hdepth).1]
        exact iff_of_true (List.mem_singleton.mpr rfl) hlt
      · obtain ⟨events, result, hrun, -, hevents⟩ := extendPrime_computes fuel trials source hk
          ⟨hbits, hp, hne, not_lt.mp hlt⟩
        rw [(hrun.run hdepth).1]
        exact iff_of_false (hevents bits) hlt
    · rintro prime hmem hprime htrials hfuel ⟨a, tested, rest, answer, rfl, hroom, hanswer⟩
      obtain ⟨p', hlen, hval, hrun⟩ := extendPrime_reaches hbits hp hne hk hfuel htrials hmem
        hprime (fun b hb => primeOutcome_of_answer hb hprime hroom hanswer) []
      obtain ⟨left, hreport⟩ := hrun.run_eq hdepth
      exact ⟨_, p', left, hlen, hval, hreport⟩

/-- Five bits and the factor three: nineteen, twenty-five and thirty-one are the
numbers of the range, and the last can be found. -/
theorem extendPrime_range_exact_thirtyone :
    2 ≤ 5 ∧ 5 ≤ ([0] : Limbs .w32).length * Width.w32.bits ∧ 1 ≤ val ([3] : Limbs .w32) ∧
      ∃ octets p' rest, p'.length = 1 ∧ val p' = 31 ∧
        (extendPrime 1 ([0] : Limbs .w32) 5 [3] 1 1024 (Finite.mk octets)).run (zeros 28) =
          ⟨[.testingDraw 1 5, .drawFound 1 5], .ok (((true, p'), ⟨[]⟩), rest)⟩ := by
  have hval : val ([31] : Limbs .w32) = 31 := by decide
  have hroom : isPrimeDepth ([31] : Limbs .w32).length ≤ (zeros 28 : Limbs .w32).length := by decide
  obtain ⟨rest, hanswer⟩ := isPrime_of_outcome hroom
    (primeOutcome_small (by rw [hval]; decide) 1)
  obtain ⟨range, -, -, -, -, -, -, hsearch⟩ :=
    extendPrime_range_exact ([0] : Limbs .w32) [3] 5 (by decide) (by decide) (by decide)
  obtain ⟨-, hreach⟩ := hsearch 1 1 1024 (zeros 28) (by decide) (by decide)
  exact ⟨by decide, by decide, by decide, hreach 31 ⟨by decide, by decide⟩ (by decide) (by decide)
    (by decide) ⟨_, _, rest, _, hval, hroom, hanswer⟩⟩

end CryptoPrimes.Prime
