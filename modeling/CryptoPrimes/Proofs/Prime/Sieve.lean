import CryptoPrimes.Proofs.Prime.Extend

/-!
# Sieving deeper changes no prime that is found

A number that the sieve drops lies above the factor base and has a divisor in it.
In two words or more the prime test finds that divisor itself; in one word it
relies on trial division, and above its range on the twelve bases, which are
known to accept no composite number.  With that knowledge as a hypothesis
(`TwelveBasesExact`), whatever one depth drops the test rejects at any other
(`primeOutcome_of_sieved`).

* `firstAccepted_filter` — numbers that are rejected can be left out of an
  upward search, which then has trials to spare;
* `runTrials_outcome` — the trials of the search with a given factor return what
  they would without a sieve, `firstAcceptedDraw`;
* `sieve_depth_preserves` — what both mean for the two searches.
-/

namespace CryptoPrimes.SingleWord

/-- No composite number of at most `bits` bits, from the end of trial division
on, is a strong probable prime to all twelve bases. -/
def TwelveBasesExact (bits : Nat) : Prop :=
  ∀ n, trialBound ≤ n → Nat.size n ≤ bits → bases.all (isStrong n) = true → n.Prime

/-- Where trial division ends there is nothing to know about the bases. -/
theorem twelveBasesExact_of_le {bits : Nat} (h : 2 ^ bits ≤ trialBound) :
    TwelveBasesExact bits := by
  intro n hbound hsize
  rw [Nat.size_le] at hsize
  exact absurd hsize (by omega)

/-- Then the test of single words is exact. -/
theorem prime_of_isPrime {bits n : Nat} (hexact : TwelveBasesExact bits)
    (hsize : Nat.size n ≤ bits) (h : isPrime n = true) : n.Prime := by
  rcases Nat.lt_or_ge n trialBound with hsmall | hlarge
  · exact (isPrime_iff hsmall).mp h
  · have hthree : 2 < trialBound := by decide
    rw [isPrime, if_neg (by omega), if_neg (by omega : ¬ n < trialBound)] at h
    split at h
    · rw [beq_iff_eq.mp h] at hlarge
      omega
    · exact hexact n hlarge hsize h

end CryptoPrimes.SingleWord

namespace CryptoPrimes.Prime

open Limbs

variable {w : Width}

/-! ## Numbers the sieve drops -/

/-- A deeper sieve leaves fewer numbers over. -/
theorem Survives.of_deeper {k k' x : Nat} (hle : k ≤ k') (h : Survives k' x) : Survives k x := by
  refine h.imp_right fun hnone p hp => hnone p ?_
  rw [← Nat.min_eq_left hle, ← List.take_take] at hp
  exact List.mem_of_mem_take hp

/-- Sieving deeper filters the numbers to be tested. -/
theorem survivors_filter {k k' : Nat} (hle : k ≤ k') (lo limit : Nat) :
    survivors k' lo limit = (survivors k lo limit).filter fun x => Survives k' x := by
  unfold survivors
  rw [List.filter_filter]
  apply List.filter_congr
  intro x _
  rw [← Bool.decide_and, decide_eq_decide]
  constructor
  · rintro ⟨hthree, hodd, h⟩
    exact ⟨h, hthree, hodd, h.of_deeper hle⟩
  · rintro ⟨h, hthree, hodd, -⟩
    exact ⟨hthree, hodd, h⟩

/-- What the sieve drops the prime test rejects, with any fuel. -/
theorem primeOutcome_of_sieved {bits k : Nat}
    (hexact : SingleWord.TwelveBasesExact (min bits w.bits)) {a : Limbs w}
    (hsize : Nat.size (val a) ≤ bits) (h : ¬ Survives k (val a)) (fuel : Nat) :
    primeOutcome fuel a = .ok false := by
  rw [Survives, not_or, not_le] at h
  obtain ⟨hlarge, hfactor⟩ := h
  push Not at hfactor
  obtain ⟨p, hmem, hdvd⟩ := hfactor
  have hp := List.mem_of_mem_take hmem
  by_cases hwords : wordLen a ≤ 1
  · have hword : Nat.size (val a) ≤ w.bits := by
      rw [wordLen_le_iff, Nat.mul_one] at hwords
      exact Nat.size_le.mpr hwords
    rw [primeOutcome, if_pos hwords, Except.ok.injEq, ← Bool.not_eq_true]
    intro hprime
    have hcomposite := SingleWord.prime_of_isPrime hexact (le_min hsize hword) hprime
    exact FactorBase.not_dvd_of_prime hcomposite hlarge hp hdvd
  · exact primeOutcome_of_factor (by omega) (.inr ⟨p, hp, hdvd⟩) fuel

/-! ## The upward search -/

/-- Numbers that the test rejects can be left out, and the trials they cost are
saved.  The induction is on the numbers, for any number of trials to spare. -/
theorem firstAccepted_filter {fuel n : Nat} {keep : Nat → Bool} {xs : List Nat}
    (hdrop : ∀ x ∈ xs, keep x = false → primeOutcome fuel (ofNat n x : Limbs w) = .ok false)
    {trials larger : Nat} (hle : trials ≤ larger) {out : Limbs w}
    (h : firstAccepted fuel n (xs.take trials) = .ok (some out)) :
    firstAccepted fuel n ((xs.filter keep).take larger) = .ok (some out) := by
  induction xs generalizing trials larger with
  | nil =>
      rw [List.take_nil, firstAccepted] at h
      exact absurd h (by simp)
  | cons x xs ih =>
      obtain ⟨hx, hrest⟩ := List.forall_mem_cons.mp hdrop
      cases trials with
      | zero =>
          rw [List.take_zero, firstAccepted] at h
          exact absurd h (by simp)
      | succ trials =>
          obtain ⟨larger, rfl⟩ := Nat.exists_eq_add_one.mpr (by omega : 0 < larger)
          rw [List.take_succ_cons, firstAccepted] at h
          cases hkeep : keep x with
          | false =>
              rw [hx hkeep] at h
              rw [List.filter_cons_of_neg (by rw [hkeep]; decide)]
              exact ih hrest (by omega) h
          | true =>
              rw [List.filter_cons_of_pos hkeep, List.take_succ_cons, firstAccepted]
              cases hout : primeOutcome fuel (ofNat n x : Limbs w) with
              | error fault =>
                  rw [hout] at h
                  exact absurd h (by simp [Bind.bind, Except.bind])
              | ok answer =>
                  rw [hout] at h
                  cases answer with
                  | true => exact h
                  | false => exact ih hrest (by omega) h

/-- A search that has found a number went through to it. -/
theorem Returns.eq_found {n : Nat} {out : Limbs w} {found : Checked (Option (Limbs w))}
    (h : Returns n (.ok (true, out)) found) : found = .ok (some out) := by
  match found, h with
  | .ok (some _), h => rw [(Prod.mk.inj (Except.ok.inj h)).2]
  | .ok none, ⟨_, _, h⟩ => exact absurd (Prod.mk.inj (Except.ok.inj h)).1 (by decide)
  | .error _, h => exact nomatch (h : Except.ok _ = Except.error _)

/-- A prime found is found at every larger depth. -/
theorem nextPrime_of_deeper {bits k k' : Nat}
    (hexact : SingleWord.TwelveBasesExact (min bits w.bits)) (hle : k ≤ k')
    (hk' : k' ≤ FactorBase.size) {fuel trials : Nat} {out start scratch scratch' out' rest : Limbs w}
    (hdepth : nextPrimeDepth out.length k ≤ scratch.length)
    (hdepth' : nextPrimeDepth out.length k' ≤ scratch'.length)
    (hfound : ((nextPrime fuel out start trials k bits).run scratch).outcome =
      .ok ((true, out'), rest)) :
    ∃ rest', ((nextPrime fuel out start trials k' bits).run scratch').outcome =
      .ok ((true, out'), rest') := by
  have hk := hle.trans hk'
  by_cases hargs : out.length = 0 ∨ out.length < wordLen start
  · rw [nextPrime, Search.ensure_bind hk, if_pos hargs] at hfound
    exact absurd (Prod.mk.inj (Prod.mk.inj (Except.ok.inj hfound)).1).1 (by decide)
  obtain ⟨hne, hroom⟩ := not_or.mp hargs
  rw [not_lt] at hroom
  obtain ⟨events, result, hrun, hreturns⟩ := nextPrime_returns fuel trials bits hk hne hroom
  have hresult := (hrun.run hdepth).2
  rw [hfound] at hresult
  rw [← show _ = result from hresult] at hreturns
  -- the same number is the first one accepted of those that the deeper sieve keeps
  have hfirst := hreturns.eq_found
  have hdrop : ∀ x ∈ survivors k (val start) (min bits (out.length * w.bits)),
      decide (Survives k' x) = false →
        primeOutcome fuel (ofNat out.length x : Limbs w) = .ok false := by
    intro x hx hdropped
    obtain ⟨-, -, hsize, -⟩ := mem_survivors_iff.mp hx
    have hfits : x < 2 ^ (w.bits * out.length) := by
      rw [← Nat.size_le, Nat.mul_comm]
      exact hsize.trans (Nat.min_le_right _ _)
    have hval : val (ofNat out.length x : Limbs w) = x := val_ofNat_of_lt hfits
    refine primeOutcome_of_sieved (k := k') hexact ?_ ?_ fuel
    · rw [hval]
      exact hsize.trans (Nat.min_le_left _ _)
    · rw [hval]
      exact of_decide_eq_false hdropped
  have hdeeper := firstAccepted_filter hdrop (le_refl trials) hfirst
  rw [← survivors_filter hle] at hdeeper
  obtain ⟨events', result', hrun', hreturns'⟩ := nextPrime_returns fuel trials bits hk' hne hroom
  rw [hdeeper] at hreturns'
  obtain rfl : result' = .ok (true, out') := hreturns'
  obtain ⟨rest', hreport⟩ := hrun'.run_eq hdepth'
  exact ⟨rest', by rw [hreport]⟩

/-! ## The search with a given factor -/

variable {σ : Type} [ByteSource σ]

/-- The trials without a sieve: draw below `bound`, and test the number of each
draw until one is accepted. -/
def firstAcceptedDraw (fuel : Nat) (p bound : Limbs w) (number : Limbs w → Nat) :
    Nat → σ → Checked ((Bool × Limbs w) × σ)
  | 0, source => .ok ((false, p), source)
  | remaining + 1, source => do
    let (draw, source) ← sampleBelow fuel bound.length bound source
    match draw with
    | none => return ((false, p), source)
    | some x =>
      let result := ofNat p.length (number x)
      if ← primeOutcome fuel result then return ((true, result), source)
      else firstAcceptedDraw fuel p bound number remaining source

/-- The trials return what they would without a sieve. -/
theorem runTrials_outcome (limits : TrialLimits) {range : Multipliers w} {m q : Nat}
    (hexact : SingleWord.TwelveBasesExact (min limits.bits w.bits))
    (hspans : range.Spans m limits.bits q) (hfits : Fits w m limits.bits q)
    (hle : leastMultiplier limits.bits q ≤ greatestMultiplier limits.bits q) {p : Limbs w}
    (hp : limits.bits ≤ p.length * w.bits) (hroom : p.length ≤ m) (remaining trial : Nat)
    (source : σ) :
    ∃ events, Search.Computes (runTrials limits range p remaining trial source)
      (isPrimeDepth p.length) events
      (firstAcceptedDraw limits.fuel p range.count
        (fun x => 2 * (leastMultiplier limits.bits q + val x) * q + 1) remaining source) := by
  induction remaining generalizing trial source with
  | zero => exact ⟨_, Search.computes_report _ _ _⟩
  | succ remaining ih =>
      rw [firstAcceptedDraw]
      rcases trial_cases limits hspans hfits hle hp hroom remaining trial source with
        ⟨hdraw, hrun⟩ | ⟨rest, hdraw, hrun⟩ | ⟨x, rest, hdraw, hbitLen, htakelen, hval, htake⟩
      · rw [hdraw]
        exact ⟨_, hrun⟩
      · rw [hdraw]
        exact ⟨_, hrun⟩
      · obtain ⟨events, hrun⟩ := ih (trial + 1) rest
        have hresult := eq_ofNat htakelen (htake.trans hval)
        rw [hdraw, Checked.ok_bind]
        dsimp only
        rw [← hresult]
        by_cases hs : survivesSieve limits.sieve (range.candidate x) = true
        · cases hout : primeOutcome limits.fuel ((range.candidate x).take p.length) with
          | error fault =>
              exact ⟨_, trial_tested hdraw hbitLen htakelen hs remaining trial
                (by rw [hout]; exact ⟨rfl, rfl⟩)⟩
          | ok answer =>
              cases answer with
              | true =>
                  exact ⟨_, trial_tested hdraw hbitLen htakelen hs remaining trial
                    (by rw [hout]; exact ⟨rfl, rfl⟩)⟩
              | false =>
                  exact ⟨_, trial_tested hdraw hbitLen htakelen hs remaining trial
                    (by rw [hout]; exact hrun)⟩
        · -- a candidate that the sieve drops would have been rejected
          have hrejected : primeOutcome limits.fuel ((range.candidate x).take p.length) =
              .ok false := by
            refine primeOutcome_of_sieved (k := limits.sieve) hexact ?_ ?_ _
            · rw [htake, ← bitLen_eq_size, hbitLen]
            · rwa [htake, ← survivesSieve_iff]
          rw [hrejected]
          exact ⟨_, trial_sieved hdraw hbitLen hs hrun⟩

/-- The search returns the same at every depth. -/
theorem extendPrime_outcome {bits : Nat} (fuel trials : Nat) (p q : Limbs w) (source : σ)
    (hexact : SingleWord.TwelveBasesExact (min bits w.bits)) :
    ∃ result, ∀ k ≤ FactorBase.size, ∃ events,
      Search.Computes (extendPrime fuel p bits q trials k source)
        (extendPrimeDepth p.length q.length) events result := by
  by_cases hsearch : Searchable p.length bits (val q) w
  · have hfits := fits_workingWords hsearch.1 hsearch.2.1 hsearch.2.2.1
    obtain ⟨hbits, hp, hq, hle⟩ := hsearch
    refine ⟨firstAcceptedDraw fuel p (ofNat (workingWords p.length q.length)
      (greatestMultiplier bits (val q) - leastMultiplier bits (val q) + 1))
      (fun x => 2 * (leastMultiplier bits (val q) + val x) * val q + 1) trials source, ?_⟩
    intro k hk
    obtain ⟨range, hspans, hopens⟩ := extendPrime_opens fuel trials source hk hbits hp hq
    obtain ⟨events, hrun⟩ := runTrials_outcome ⟨trials, k, bits, fuel⟩ hexact hspans hfits hle hp
      (le_workingWords _ _).1 trials 1 source
    rw [count_eq hspans hfits hle] at hrun
    have hnonempty : ¬ less range.greatest range.least = true := by
      rw [less_iff, hspans.greatest_val, hspans.least_val]
      omega
    rw [if_neg hnonempty] at hopens
    exact ⟨events, hopens _ _ hrun⟩
  · exact ⟨_, fun k hk => extendPrime_unsearchable fuel trials source hk hsearch⟩

/-! ## Both searches -/

/-- The depth of the sieve is a matter of speed.  If the twelve bases accept no
composite word of the lengths in question, the search with a given factor
returns the same verdict, the same `p` and the same source at any two depths,
from any scratch, and faults for fuel at both or at neither.  The source is any
state that serves octets, one that keeps a record of them included.  A prime
that the upward search finds at some depth is found at every larger one. -/
theorem sieve_depth_preserves (fuel bits : Nat)
    (hexact : SingleWord.TwelveBasesExact (min bits w.bits)) :
    (∀ (σ : Type) [ByteSource σ] (p q : Limbs w) (trials : Nat) (source : σ) (k k' : Nat)
      (scratch scratch' : Limbs w),
      k ≤ FactorBase.size → k' ≤ FactorBase.size →
      extendPrimeDepth p.length q.length ≤ scratch.length →
      extendPrimeDepth p.length q.length ≤ scratch'.length →
      ((extendPrime fuel p bits q trials k source).run scratch).outcome.map Prod.fst =
        ((extendPrime fuel p bits q trials k' source).run scratch').outcome.map Prod.fst) ∧
    (∀ (out start : Limbs w) (trials k k' : Nat) (scratch scratch' out' rest : Limbs w),
      k ≤ k' → k' ≤ FactorBase.size →
      nextPrimeDepth out.length k ≤ scratch.length →
      nextPrimeDepth out.length k' ≤ scratch'.length →
      ((nextPrime fuel out start trials k bits).run scratch).outcome = .ok ((true, out'), rest) →
      ∃ rest', ((nextPrime fuel out start trials k' bits).run scratch').outcome =
        .ok ((true, out'), rest')) := by
  constructor
  · intro σ _ p q trials source k k' scratch scratch' hk hk' hdepth hdepth'
    obtain ⟨result, hresult⟩ := extendPrime_outcome fuel trials p q source hexact
    obtain ⟨events, hrun⟩ := hresult k hk
    obtain ⟨events', hrun'⟩ := hresult k' hk'
    rw [(hrun.run hdepth).2, (hrun'.run hdepth').2]
  · intro out start trials k k' scratch scratch' out' rest hle hk' hdepth hdepth' hfound
    exact nextPrime_of_deeper hexact hle hk' hdepth hdepth' hfound

/-- In fourteen bits.  From 8169 on, which is a multiple of three, the full sieve
finds the 8171 that is found without one; and with the factor three it agrees
about draws of 8197, which is a multiple of seven, and then of 8209. -/
theorem sieve_depth_preserves_fourteen_bits :
    SingleWord.TwelveBasesExact (min 14 Width.w32.bits) ∧
      ((extendPrime 1 ([0] : Limbs .w32) 14 [3] 2 0
          (Finite.mk (List.replicate 8 0 ++ 2 :: List.replicate 7 0))).run
            (zeros 28)).outcome.map Prod.fst =
        ((extendPrime 1 ([0] : Limbs .w32) 14 [3] 2 1024
          (Finite.mk (List.replicate 8 0 ++ 2 :: List.replicate 7 0))).run
            (zeros 28)).outcome.map Prod.fst ∧
      (∃ rest, ((nextPrime 1 ([0] : Limbs .w32) [8169] 2 0 14).run (zeros 1040)).outcome =
        .ok ((true, [8171]), rest)) ∧
      ∃ rest, ((nextPrime 1 ([0] : Limbs .w32) [8169] 2 1024 14).run (zeros 1040)).outcome =
        .ok ((true, [8171]), rest) := by
  have hexact : SingleWord.TwelveBasesExact (min 14 Width.w32.bits) :=
    SingleWord.twelveBasesExact_of_le (by decide)
  obtain ⟨hextend, hnext⟩ := sieve_depth_preserves (w := .w32) 1 14 hexact
  have hdepth : nextPrimeDepth ([0] : Limbs .w32).length 0 ≤ (zeros 1040 : Limbs .w32).length := by
    rw [length_zeros]
    decide
  have hdepth' : nextPrimeDepth ([0] : Limbs .w32).length 1024 ≤
      (zeros 1040 : Limbs .w32).length := by
    rw [length_zeros]
    decide
  have hfirst : firstAccepted 1 ([0] : Limbs .w32).length
      ((survivors 0 (val ([8169] : Limbs .w32))
        (min 14 (([0] : Limbs .w32).length * Width.w32.bits))).take 2) =
      .ok (some ([8171] : Limbs .w32)) := by
    decide +kernel
  obtain ⟨events, result, hrun, hreturns⟩ := nextPrime_returns 1 2 14
    (Nat.zero_le FactorBase.size) (by decide : ([0] : Limbs .w32).length ≠ 0)
    (by decide : wordLen ([8169] : Limbs .w32) ≤ ([0] : Limbs .w32).length)
  rw [hfirst] at hreturns
  obtain rfl : result = .ok (true, [8171]) := hreturns
  obtain ⟨rest, hreport⟩ := hrun.run_eq hdepth
  have hfound : ((nextPrime 1 ([0] : Limbs .w32) [8169] 2 0 14).run (zeros 1040)).outcome =
      .ok ((true, [8171]), rest) := by rw [hreport]
  exact ⟨hexact,
    hextend _ _ _ _ _ 0 1024 _ _ (by decide) (by decide) (by decide) (by decide),
    ⟨rest, hfound⟩,
    hnext _ _ _ 0 1024 _ _ _ _ (by decide) (by decide) hdepth hdepth' hfound⟩

end CryptoPrimes.Prime
