import CryptoPrimes.Proofs.InPlace.SearchEvents
import CryptoPrimes.Proofs.Prime.Params

/-!
# What the searches find, in all three forms

A search on values, its trapping form and its form in place report the same, so what
the report of the first says holds of the others (`nextPrime_finds`, `extendPrime_finds`),
and of the searches that are run through parameters (`searches_check_first`).  On
operands whose bits can be counted the two forms with faults have none but fuel.

Of the upward search the report tells more than the result.  The candidates it announces
are the first survivors, in their order and each of them once, and the event behind them
names the exit.  The residues lie beside the candidate at every step: the search that
computes them afresh at each candidate, and stops if the table has others, is the search.
-/

namespace CryptoPrimes.InPlace

open Limbs Trapping

variable {w : Width} {σ : Type} [ByteSource σ]

/-! ## The upward search -/

/-- What an upward search reports: the first number accepted among the first `trials`
survivors, and the walk that led there. -/
structure FindsAndTells (fuel : Nat) (out start scratch : Limbs w) (trials k bitLimit : Nat)
    (report : Report w (Bool × Limbs w)) : Prop extends
    Prime.FindsNext fuel out start scratch
      ((Prime.survivors k (val start) (min bitLimit (out.length * w.bits))).take trials)
      report where
  told : out.length ≠ 0 → wordLen start ≤ out.length → ∃ candidates closing,
    WalkEvents (fun _ => []) (Prime.primeOutcome fuel)
      ⟨trials, min bitLimit (out.length * w.bits), fuel⟩ out.length
      (Prime.survivors k (val start) (min bitLimit (out.length * w.bits))) candidates closing
      report.events (report.outcome.map Prod.fst)

section Next

variable {k trials : Nat} {out start scratch : Limbs w} (fuel bitLimit : Nat)
  (hk : k ≤ FactorBase.size) (htrials : trials < sizeLimit)
  (hbits : w.bits * out.length < sizeLimit)

theorem findsAndTells_of_refused {search : Search w (Bool × Limbs w)}
    (hargs : out.length = 0 ∨ out.length < wordLen start)
    (hrun : Search.Computes search 0 [] (.ok (false, out))) :
    FindsAndTells fuel out start scratch trials k bitLimit (search.run scratch) where
  toFindsNext := Prime.findsNext_of_refused hargs hrun
  told hne hroom := by omega

include hk htrials hbits

/-- All three forms find the same number, and tell the same about it. -/
theorem nextPrime_findsAndTells (hdepth : Prime.nextPrimeDepth out.length k ≤ scratch.length) :
    FindsAndTells fuel out start scratch trials k bitLimit
        ((Prime.nextPrime fuel out start trials k bitLimit).run scratch) ∧
      FindsAndTells fuel out start scratch trials k bitLimit
        ((Trapping.nextPrime fuel out start trials k bitLimit).run scratch) ∧
      FindsAndTells fuel out start scratch trials k bitLimit
        ((nextPrime fuel out start trials k bitLimit).run scratch) := by
  by_cases hargs : out.length = 0 ∨ out.length < wordLen start
  · have htrapping : Search.Computes (Trapping.nextPrime fuel out start trials k bitLimit) 0 []
        (.ok (false, out)) := by
      rw [Trapping.nextPrime, Search.ensure_bind hk, if_pos hargs]
      exact Search.computes_pure _
    have hinPlace : Search.Computes (nextPrime fuel out start trials k bitLimit) 0 []
        (.ok (false, out)) := by
      rw [nextPrime, nextPrimeWith, Search.ensure_bind hk, if_pos hargs]
      exact Search.computes_pure _
    exact ⟨findsAndTells_of_refused fuel bitLimit hargs
        (Prime.nextPrime_unsearchable fuel trials bitLimit hk hargs),
      findsAndTells_of_refused fuel bitLimit hargs htrapping,
      findsAndTells_of_refused fuel bitLimit hargs hinPlace⟩
  obtain ⟨hne, hroom⟩ := not_or.mp hargs
  rw [not_lt] at hroom
  obtain ⟨candidates, closing, events, result, htells, hevents, -⟩ :=
    nextPrime_events fuel bitLimit hk htrials hbits hne hroom
  obtain ⟨events', result', hplain, hends⟩ :=
    Prime.nextPrime_computes fuel trials bitLimit hk hne hroom
  obtain ⟨-, rfl⟩ := hplain.unique htells.plain
  have hfinds {search : Search w (Bool × Limbs w)}
      (hrun : Search.Computes search (Prime.nextPrimeDepth out.length k) events result') :
      FindsAndTells fuel out start scratch trials k bitLimit (search.run scratch) := by
    refine ⟨Prime.findsNext_of_ends hne hroom hrun hdepth hends, fun _ _ => ?_⟩
    obtain ⟨htold, hresult⟩ := hrun.run hdepth
    rw [htold, hresult]
    exact ⟨candidates, closing, hevents⟩
  exact ⟨hfinds htells.plain, hfinds htells.trapping, hfinds htells.inPlace⟩

end Next

/-- The meaning of the upward search.  Without words, or with fewer than the start value
needs, it returns at once.  Otherwise it finds the first number accepted among the first
`trials` survivors, and can only stop without an answer at a test that does.  Where
numbers are no longer than a memory of `sizeLimit` bits can hold, this is so in all three
forms; each tests its survivors in their order, once, and reports it; and the residues in
the table are those of every candidate it comes by. -/
theorem nextPrime_finds (fuel : Nat) (out start scratch : Limbs w) (trials k bitLimit : Nat)
    (hk : k ≤ FactorBase.size)
    (hdepth : Prime.nextPrimeDepth out.length k ≤ scratch.length) :
    Prime.FindsNext fuel out start scratch
        ((Prime.survivors k (val start) (min bitLimit (out.length * w.bits))).take trials)
        ((Prime.nextPrime fuel out start trials k bitLimit).run scratch) ∧
      (trials < sizeLimit → w.bits * out.length < sizeLimit →
        (FindsAndTells fuel out start scratch trials k bitLimit
            ((Prime.nextPrime fuel out start trials k bitLimit).run scratch) ∧
          FindsAndTells fuel out start scratch trials k bitLimit
            ((Trapping.nextPrime fuel out start trials k bitLimit).run scratch) ∧
          FindsAndTells fuel out start scratch trials k bitLimit
            ((nextPrime fuel out start trials k bitLimit).run scratch)) ∧
        nextPrimeWith assertResidues (askPrime fuel) fuel out start trials k bitLimit =
          nextPrime fuel out start trials k bitLimit) ∧
      (out.length ≠ 0 → wordLen start ≤ out.length → ∀ steps,
        val (Prime.firstCandidate out.length start) + 2 * steps < 2 ^ (w.bits * out.length) →
        Nat.repeat Prime.stepResidues steps
            (FactorBase.residues k (Prime.firstCandidate out.length start)) =
          FactorBase.residues k
            (Prime.candidate (Prime.firstCandidate out.length start) steps)) := by
  refine ⟨Prime.nextPrime_findsNext fuel out start scratch trials bitLimit hk hdepth,
    fun htrials hbits => ⟨?_, ?_⟩, fun hne hroom steps hfits => ?_⟩
  · exact nextPrime_findsAndTells fuel bitLimit hk htrials hbits hdepth
  · exact nextPrimeWith_look (passes_assertResidues hk) _ fuel start trials bitLimit hk hbits
  · have hlength := (Prime.firstCandidate_spec hne hroom).1
    exact Prime.repeat_stepResidues hk (by rwa [hlength])

/-- From eight on, with numbers of five bits and ten sieving primes: nine is tested first,
and eleven is found, in all three forms and with residues computed afresh. -/
theorem nextPrime_finds_eleven :
    10 ≤ FactorBase.size ∧
      Prime.nextPrimeDepth ([0] : Limbs .w32).length 10 ≤ (zeros 22 : Limbs .w32).length ∧
      5 < sizeLimit ∧ Width.w32.bits * ([0] : Limbs .w32).length < sizeLimit ∧
      (∃ out rest, ((Prime.nextPrime 0 ([0] : Limbs .w32) [8] 5 10 5).run (zeros 22)).outcome =
        .ok ((true, out), rest) ∧ val out = 11) ∧
      (∃ out rest, ((Trapping.nextPrime 0 ([0] : Limbs .w32) [8] 5 10 5).run (zeros 22)).outcome =
        .ok ((true, out), rest) ∧ val out = 11) ∧
      ∃ out rest, ((nextPrimeWith assertResidues (askPrime 0) 0 ([0] : Limbs .w32) [8] 5 10 5).run
        (zeros 22)).outcome = .ok ((true, out), rest) ∧ val out = 11 := by
  have hdepth : Prime.nextPrimeDepth ([0] : Limbs .w32).length 10 ≤
      (zeros 22 : Limbs .w32).length := by decide
  have htested : (Prime.survivors 10 (val ([8] : Limbs .w32))
      (min 5 (([0] : Limbs .w32).length * Width.w32.bits))).take 5 = [9, 11, 13, 15, 17] := by
    decide +kernel
  have hanswers : ∀ y ∈ [9, 11, 13, 15, 17], ¬ Prime.Unanswered .w32 0 y := by
    intro y hy
    have hsmall : y ≤ 17 := (by decide : ∀ y ∈ [9, 11, 13, 15, 17], y ≤ 17) y hy
    exact Prime.not_unanswered (lt_of_le_of_lt hsmall (by decide))
  have hnine : ∀ y ∈ [9], ¬ Prime.Accepted .w32 y := by
    rw [List.forall_mem_singleton, Prime.accepted_iff_prime (by decide)]
    decide
  have heleven : Prime.Accepted .w32 11 := (Prime.accepted_iff_prime (by decide)).mpr (by decide)
  have hfound {report : Report .w32 (Bool × Limbs .w32)}
      (h : FindsAndTells 0 [0] [8] (zeros 22) 5 10 5 report) :
      ∃ out rest, report.outcome = .ok ((true, out), rest) ∧ val out = 11 := by
    have hfinds := h.toFindsNext
    rw [htested] at hfinds
    exact hfinds.found (by decide) (by decide) hanswers rfl hnine heleven
  obtain ⟨-, hforms, -⟩ :=
    nextPrime_finds 0 ([0] : Limbs .w32) [8] (zeros 22) 5 10 5 (by decide) hdepth
  obtain ⟨⟨hplain, htrapping, hinPlace⟩, hresidues⟩ := hforms (by decide) (by decide)
  rw [← hresidues] at hinPlace
  exact ⟨by decide, hdepth, by decide, by decide, hfound hplain, hfound htrapping,
    hfound hinPlace⟩

/-! ## The search with a given factor -/

/-- The trapping form and the one in place find what the search on values does. -/
theorem extendPrime_findsWithFactor {k bits : Nat} {p q scratch : Limbs w} (fuel trials : Nat)
    (source : σ) (hk : k ≤ FactorBase.size)
    (hdepth : Prime.extendPrimeDepth p.length q.length ≤ scratch.length)
    (hp : w.bits * p.length < sizeLimit) (hq : w.bits * q.length < sizeLimit) :
    Prime.FindsWithFactor fuel k p bits q trials
        (fun x => 2 * (Prime.leastMultiplier bits (val q) + val x) * val q + 1)
        (Prime.searchDraws fuel p bits q trials source)
        ((Trapping.extendPrime fuel p bits q trials k source).run scratch) ∧
      Prime.FindsWithFactor fuel k p bits q trials
        (fun x => 2 * (Prime.leastMultiplier bits (val q) + val x) * val q + 1)
        (Prime.searchDraws fuel p bits q trials source)
        ((extendPrime fuel p bits q trials k source).run scratch) := by
  by_cases hsearch : Prime.Searchable p.length bits (val q) w
  · obtain ⟨events, result, hrun, hends, -⟩ :=
      Prime.extendPrime_computes fuel trials source hk hsearch
    have htells := extendPrime_tells fuel trials source hk hp hq hrun
    exact ⟨Prime.findsWithFactor_of_ends hsearch htells.trapping hdepth hends,
      Prime.findsWithFactor_of_ends hsearch htells.inPlace hdepth hends⟩
  · obtain ⟨events, hrun⟩ := Prime.extendPrime_unsearchable fuel trials source hk hsearch
    have htells := extendPrime_tells fuel trials source hk hp hq hrun
    exact ⟨Prime.findsWithFactor_of_refused hsearch htells.trapping hdepth,
      Prime.findsWithFactor_of_refused hsearch htells.inPlace hdepth⟩

/-- The meaning of the search for a prime with a given factor.  It never faults but for
fuel, in a draw or in a test.  It finds a prime exactly if the arguments can be searched
and some draw gives a number that survives the sieve and is accepted; then it is the
number of the first such draw, it has exactly `bits` bits and is `2 * r * q + 1` for some
`r` from one on.  Otherwise `p` is left as it was.  Where numbers are no longer than a
memory of `sizeLimit` bits can hold, this is so in all three forms. -/
theorem extendPrime_finds (fuel : Nat) (p : Limbs w) (bits : Nat) (q : Limbs w)
    (trials k : Nat) (source : σ) (scratch : Limbs w) (hk : k ≤ FactorBase.size)
    (hdepth : Prime.extendPrimeDepth p.length q.length ≤ scratch.length) :
    let number := fun x : Limbs w => 2 * (Prime.leastMultiplier bits (val q) + val x) * val q + 1
    let drawn := Prime.searchDraws fuel p bits q trials source
    Prime.FindsWithFactor fuel k p bits q trials number drawn
        ((Prime.extendPrime fuel p bits q trials k source).run scratch) ∧
      (w.bits * p.length < sizeLimit → w.bits * q.length < sizeLimit →
        Prime.FindsWithFactor fuel k p bits q trials number drawn
            ((Trapping.extendPrime fuel p bits q trials k source).run scratch) ∧
          Prime.FindsWithFactor fuel k p bits q trials number drawn
            ((extendPrime fuel p bits q trials k source).run scratch)) :=
  ⟨Prime.extendPrime_findsWithFactor fuel p bits q trials k source scratch hk hdepth,
    fun hp hq => extendPrime_findsWithFactor fuel trials source hk hdepth hp hq⟩

/-- Five bits and the factor three: the multipliers are three to five, and a source of
zeros draws the first, which gives nineteen. -/
theorem extendPrime_finds_nineteen :
    10 ≤ FactorBase.size ∧
      Prime.extendPrimeDepth ([0] : Limbs .w32).length ([3] : Limbs .w32).length ≤
        (zeros 28 : Limbs .w32).length ∧
      Width.w32.bits * ([0] : Limbs .w32).length < sizeLimit ∧
      Width.w32.bits * ([3] : Limbs .w32).length < sizeLimit ∧
      (∃ p source rest, ((Prime.extendPrime 1 ([0] : Limbs .w32) 5 [3] 1 10
        (Finite.mk (List.replicate 8 0))).run (zeros 28)).outcome =
          .ok (((true, p), source), rest) ∧ val p = 19) ∧
      ∃ p source rest, ((extendPrime 1 ([0] : Limbs .w32) 5 [3] 1 10
        (Finite.mk (List.replicate 8 0))).run (zeros 28)).outcome =
          .ok (((true, p), source), rest) ∧ val p = 19 := by
  have hdepth : Prime.extendPrimeDepth ([0] : Limbs .w32).length ([3] : Limbs .w32).length ≤
      (zeros 28 : Limbs .w32).length := by decide
  have hsearch : Prime.Searchable ([0] : Limbs .w32).length 5 (val ([3] : Limbs .w32)) .w32 :=
    ⟨by decide, by decide, by decide, by decide⟩
  have hdrawn : Prime.searchDraws 1 ([0] : Limbs .w32) 5 [3] 1
      (Finite.mk (List.replicate 8 0)) = ([[0, 0]], .ok true) := by decide +kernel
  have hnumber : 2 * (Prime.leastMultiplier 5 (val ([3] : Limbs .w32)) +
      val ([0, 0] : Limbs .w32)) * val ([3] : Limbs .w32) + 1 = 19 := by decide
  have hnineteen : Prime.Accepted .w32 19 := (Prime.accepted_iff_prime (by decide)).mpr (by decide)
  obtain ⟨hplain, hforms⟩ := extendPrime_finds 1 ([0] : Limbs .w32) 5 [3] 1 10
    (Finite.mk (List.replicate 8 0)) (zeros 28) (by decide) hdepth
  obtain ⟨-, hinPlace⟩ := hforms (by decide) (by decide)
  have hsurvives : Prime.Survives 10 19 := .inl (by decide)
  have hanswer : ¬ Prime.Unanswered .w32 1 19 := Prime.not_unanswered (by decide)
  rw [← hnumber] at hnineteen hsurvives hanswer
  obtain ⟨p, source, rest, hrun, hval⟩ :=
    hplain.found_first hsearch hdrawn hsurvives hnineteen hanswer
  obtain ⟨p', source', rest', hrun', hval'⟩ :=
    hinPlace.found_first hsearch hdrawn hsurvives hnineteen hanswer
  exact ⟨by decide, hdepth, by decide, by decide, ⟨p, source, rest, hrun, hval.trans hnumber⟩,
    p', source', rest', hrun', hval'.trans hnumber⟩

/-! ## Behind the checks -/

/-- Searches run through parameters, on operands whose bits can be counted, in all three
forms.  Each refuses parameters that are not valid, a length beyond the words of `p`
among them; then scratch that is too short, with the words it needs and those it has; and
everything else is the raw search of the same form with the same trials, sieve and bit
limit.  A refusal leaves the result, the source and the scratch as they were, and no
search has a fault but for fuel. -/
theorem searches_check_first (params : Prime.SearchParams) (fuel : Nat) (scratch : Limbs w) :
    (∀ out start : Limbs w, w.bits * out.length < sizeLimit →
      Prime.SearchParams.NextChecksFirst Prime.nextPrime params fuel out start scratch
          ((params.nextPrime fuel out start).run scratch) ∧
        (params.trials < sizeLimit →
          Prime.SearchParams.NextChecksFirst Trapping.nextPrime params fuel out start scratch
              ((Trapping.SearchParams.nextPrime params fuel out start).run scratch) ∧
            Prime.SearchParams.NextChecksFirst InPlace.nextPrime params fuel out start scratch
              ((SearchParams.nextPrime params fuel out start).run scratch))) ∧
    (∀ (σ : Type) [ByteSource σ] (p q : Limbs w) (bits : Nat) (source : σ),
      w.bits * p.length < sizeLimit → w.bits * q.length < sizeLimit →
      Prime.SearchParams.ExtendChecksFirst Prime.extendPrime params fuel p bits q source scratch
          ((params.extendPrime fuel p bits q source).run scratch) ∧
        Prime.SearchParams.ExtendChecksFirst Trapping.extendPrime params fuel p bits q source
          scratch ((Trapping.SearchParams.extendPrime params fuel p bits q source).run scratch) ∧
        Prime.SearchParams.ExtendChecksFirst InPlace.extendPrime params fuel p bits q source
          scratch ((SearchParams.extendPrime params fuel p bits q source).run scratch)) := by
  constructor
  · intro out start hout
    refine ⟨?_, fun htrials => ⟨?_, ?_⟩⟩
    · exact Prime.SearchParams.nextPrimeBy_checksFirst hout fun hvalid hdepth =>
        Prime.nextPrime_findsNext fuel out start scratch _ _ hvalid.2 hdepth
    · exact Prime.SearchParams.nextPrimeBy_checksFirst hout fun hvalid hdepth =>
        (nextPrime_findsAndTells fuel _ hvalid.2 htrials hout hdepth).2.1.toFindsNext
    · exact Prime.SearchParams.nextPrimeBy_checksFirst hout fun hvalid hdepth =>
        (nextPrime_findsAndTells fuel _ hvalid.2 htrials hout hdepth).2.2.toFindsNext
  · intro σ _ p q bits source hp hq
    refine ⟨?_, ?_, ?_⟩
    · exact Prime.SearchParams.extendPrimeBy_checksFirst hp hq fun hvalid hdepth =>
        Prime.extendPrime_findsWithFactor fuel p bits q _ _ source scratch hvalid.2 hdepth
    · exact Prime.SearchParams.extendPrimeBy_checksFirst hp hq fun hvalid hdepth =>
        (extendPrime_findsWithFactor fuel _ source hvalid.2 hdepth hp hq).1
    · exact Prime.SearchParams.extendPrimeBy_checksFirst hp hq fun hvalid hdepth =>
        (extendPrime_findsWithFactor fuel _ source hvalid.2 hdepth hp hq).2

open Prime.SearchParams (refusal accepted) in
/-- On one word: no trials, a single scratch word, and a length of 33 bits are refused
with everything as it was given, and five trials on scratch enough are those of the raw
search. -/
theorem searches_check_first_one_word :
    Width.w32.bits * ([7] : Limbs .w32).length < sizeLimit ∧
      Width.w32.bits * ([3] : Limbs .w32).length < sizeLimit ∧ 5 < sizeLimit ∧
      (∃ cause, ((⟨0, 0, none⟩ : Prime.SearchParams).nextPrime 1 ([7] : Limbs .w32) [8]).run [1] =
        refusal [7] [1] (.invalidParameter cause)) ∧
      (Trapping.SearchParams.nextPrime ⟨5, 0, some 5⟩ 1 ([7] : Limbs .w32) [8]).run [1] =
        refusal [7] [1] (.scratchTooSmall 12 1) ∧
      (SearchParams.nextPrime ⟨5, 0, some 5⟩ 1 ([7] : Limbs .w32) [8]).run (zeros 12) =
        accepted ((nextPrime 1 ([7] : Limbs .w32) [8] 5 0 5).run (zeros 12)) ∧
      ∃ cause, (SearchParams.extendPrime ⟨5, 0, none⟩ 1 ([7] : Limbs .w32) 33 [3]
        (Finite.mk [9])).run [1] = refusal ([7], Finite.mk [9]) [1] (.invalidParameter cause) := by
  have hseven : Width.w32.bits * ([7] : Limbs .w32).length < sizeLimit := by decide
  have hthree : Width.w32.bits * ([3] : Limbs .w32).length < sizeLimit := by decide
  have htrials : 5 < sizeLimit := by decide
  refine ⟨hseven, hthree, htrials, ?_, ?_, ?_, ?_⟩
  · obtain ⟨hplain, -⟩ := (searches_check_first ⟨0, 0, none⟩ 1 [1]).1 [7] [8] hseven
    exact hplain.invalid_iff.mpr fun hvalid => hvalid.1 rfl
  · obtain ⟨-, hforms⟩ := (searches_check_first ⟨5, 0, some 5⟩ 1 [1]).1 [7] [8] hseven
    exact ((hforms htrials).1.short_iff 12 1).mpr
      ⟨⟨by decide, by decide⟩, by decide, by decide, by decide⟩
  · obtain ⟨-, hforms⟩ := (searches_check_first ⟨5, 0, some 5⟩ 1 (zeros 12)).1 [7] [8] hseven
    exact (hforms htrials).2.accepted_iff.mpr ⟨⟨by decide, by decide⟩, by decide⟩
  · obtain ⟨-, -, hinPlace⟩ := (searches_check_first ⟨5, 0, none⟩ 1 [1]).2 Finite [7] [3] 33
      (Finite.mk [9]) hseven hthree
    exact hinPlace.invalid_iff.mpr fun hvalid => absurd hvalid.2 (by decide)

end CryptoPrimes.InPlace
