import CryptoPrimes.Proofs.InPlace.Extend
import CryptoPrimes.Proofs.InPlace.NextEvents
import CryptoPrimes.Proofs.Prime.ExtendEvents

/-!
# What the searches report is what they did

The reports of a search can be taken for a log of its run.  Of the upward search this
holds whatever test it asks: with a test that reports its own calls, the log shows one
announcement right before each of them.  Of both searches it holds in all three forms,
which report the same.

A search ends with one report that names its exit.  Silent are only the exits for bad
arguments and the one where the upward search leaves the words of its result; and a
run whose draws are used up has not ended at all.
-/

namespace CryptoPrimes.InPlace

open Limbs Trapping

variable {w : Width} {α σ : Type} {depth : Nat}

/-! ## Three forms, one log -/

/-- In all three forms a search reports `events` and ends with `result`, on any scratch
of at least `depth` words. -/
structure Tells (plain trapping inPlace : Search w α) (depth : Nat) (events : List Event)
    (result : Checked α) : Prop extends Search.Agree plain trapping depth events result where
  inPlace : Search.Computes inPlace depth events result
  fault : OnlyFuel result

/-- What one run in place reports, all forms do. -/
theorem tells_of_inPlace {plain trapping inPlace : Search w α} {events : List Event}
    {result : Checked α}
    (hagree : ∃ events result, Search.Agree plain trapping depth events result ∧ OnlyFuel result)
    (hfollows : Search.Follows depth Eq inPlace trapping)
    (hrun : Search.Computes inPlace depth events result) :
    Tells plain trapping inPlace depth events result := by
  obtain ⟨events', result', hagree, hfuel⟩ := hagree
  obtain ⟨rfl, rfl⟩ := hrun.unique (hfollows.computes hagree.trapping)
  exact ⟨hagree, hrun, hfuel⟩

theorem tells_of_plain {plain trapping inPlace : Search w α} {events : List Event}
    {result : Checked α}
    (hagree : ∃ events result, Search.Agree plain trapping depth events result ∧ OnlyFuel result)
    (hfollows : Search.Follows depth Eq inPlace trapping)
    (hrun : Search.Computes plain depth events result) :
    Tells plain trapping inPlace depth events result := by
  obtain ⟨events', result', hagree, hfuel⟩ := hagree
  obtain ⟨rfl, rfl⟩ := hrun.unique hagree.plain
  exact ⟨hagree, hfollows.computes hagree.trapping, hfuel⟩

/-! ## The upward search -/

section Next

variable {k trials : Nat} {out start : Limbs w} (fuel bitLimit : Nat) (hk : k ≤ FactorBase.size)
  (htrials : trials < sizeLimit) (hbits : w.bits * out.length < sizeLimit)

include hk htrials hbits

theorem nextPrime_tells {events : List Event} {result : Checked (Bool × Limbs w)}
    (hrun : Search.Computes (nextPrime fuel out start trials k bitLimit)
      (Prime.nextPrimeDepth out.length k) events result) :
    Tells (Prime.nextPrime fuel out start trials k bitLimit)
      (Trapping.nextPrime fuel out start trials k bitLimit)
      (nextPrime fuel out start trials k bitLimit) (Prime.nextPrimeDepth out.length k) events
      result :=
  tells_of_inPlace (nextPrime_agree start fuel bitLimit hk hbits htrials)
    (follows_nextPrime fuel start trials k bitLimit hbits) hrun

/-- The log of the upward search is that of a search with a test that reports nothing. -/
theorem nextPrime_events (hn : out.length ≠ 0) (hroom : wordLen start ≤ out.length) :
    ∃ tested closing events result,
      Tells (Prime.nextPrime fuel out start trials k bitLimit)
        (Trapping.nextPrime fuel out start trials k bitLimit)
        (nextPrime fuel out start trials k bitLimit) (Prime.nextPrimeDepth out.length k) events
        result ∧
      WalkEvents (fun _ => []) (Prime.primeOutcome fuel)
        ⟨trials, min bitLimit (out.length * w.bits), fuel⟩ out.length
        (Prime.survivors k (val start) (min bitLimit (out.length * w.bits))) tested closing events
        result ∧
      events.filter (·.level = .debug) = closing := by
  obtain ⟨tested, closing, events, result, hrun, hevents⟩ :=
    nextPrimeWith_events (primeTest fuel hbits) fuel bitLimit hk htrials hbits hn hroom
  exact ⟨tested, closing, events, result, nextPrime_tells fuel bitLimit hk htrials hbits hrun,
    hevents, hevents.debug⟩

/-- Bad arguments are turned down in silence. -/
theorem nextPrime_refused (hargs : out.length = 0 ∨ out.length < wordLen start) :
    Tells (Prime.nextPrime fuel out start trials k bitLimit)
      (Trapping.nextPrime fuel out start trials k bitLimit)
      (nextPrime fuel out start trials k bitLimit) (Prime.nextPrimeDepth out.length k) []
      (.ok (false, out)) := by
  apply nextPrime_tells fuel bitLimit hk htrials hbits
  rw [nextPrime, nextPrimeWith, Search.ensure_bind hk, if_pos hargs]
  exact (Search.computes_pure _).mono (Nat.zero_le _)

end Next

/-! ## The search with a given factor -/

section Extend

variable [ByteSource σ] {k bits : Nat} {p q : Limbs w} (fuel trials : Nat) (source : σ)
  (hk : k ≤ FactorBase.size) (hp : w.bits * p.length < sizeLimit)
  (hq : w.bits * q.length < sizeLimit)

include hk hp hq

theorem extendPrime_tells {events : List Event} {result : Checked ((Bool × Limbs w) × σ)}
    (hrun : Search.Computes (Prime.extendPrime fuel p bits q trials k source)
      (Prime.extendPrimeDepth p.length q.length) events result) :
    Tells (Prime.extendPrime fuel p bits q trials k source)
      (Trapping.extendPrime fuel p bits q trials k source)
      (extendPrime fuel p bits q trials k source) (Prime.extendPrimeDepth p.length q.length)
      events result :=
  tells_of_plain (extendPrime_agree fuel trials source hk hp hq)
    (follows_extendPrime fuel p bits q trials source) hrun

/-- Bad arguments are turned down in silence. -/
theorem extendPrime_refused (hargs : bits < 2 ∨ p.length * w.bits < bits ∨ val q = 0) :
    Tells (Prime.extendPrime fuel p bits q trials k source)
      (Trapping.extendPrime fuel p bits q trials k source)
      (extendPrime fuel p bits q trials k source) (Prime.extendPrimeDepth p.length q.length) []
      (.ok ((false, p), source)) := by
  apply extendPrime_tells fuel trials source hk hp hq
  rw [← isZero_iff] at hargs
  rw [Prime.extendPrime, Search.ensure_bind hk, if_pos hargs]
  exact (Search.computes_pure _).mono (Nat.zero_le _)

end Extend

/-! ## Faithful logs -/

/-- What is promised of the log of a search.  Numbers are no longer than a memory of
`sizeLimit` bits can hold. -/
structure FaithfulEvents (w : Width) : Prop where
  /-- Whatever test the upward search asks, and whatever it makes sure of about its table
  that is true of the residues of the candidate. -/
  nextPrimeWith : ∀ (depth fuel : Nat) (out start : Limbs w)
    (look : Limbs w → Limbs w → Search w Unit) (test : CandidateTest w out.length depth)
    (trials k bitLimit : Nat), Passes k look →
    k ≤ FactorBase.size → trials < sizeLimit → w.bits * out.length < sizeLimit →
    out.length ≠ 0 → wordLen start ≤ out.length →
    ∃ tested closing events result,
      Search.Computes (nextPrimeWith look test.run fuel out start trials k bitLimit) (k + depth)
        events result ∧
      WalkEvents test.notes test.answer ⟨trials, min bitLimit (out.length * w.bits), fuel⟩
        out.length (Prime.survivors k (val start) (min bitLimit (out.length * w.bits))) tested
        closing events result
  /-- The upward search is that with the prime test, and nothing to make sure of. -/
  nextPrime_asks : ∀ (fuel : Nat) (out start : Limbs w) (trials k bitLimit : Nat),
    k ≤ FactorBase.size → w.bits * out.length < sizeLimit →
    InPlace.nextPrimeWith (fun _ _ => pure ()) (fun a => Search.quietly (isPrime fuel a)) fuel out
      start trials k bitLimit = nextPrime fuel out start trials k bitLimit
  nextPrime : ∀ (fuel : Nat) (out start : Limbs w) (trials k bitLimit : Nat),
    k ≤ FactorBase.size → trials < sizeLimit → w.bits * out.length < sizeLimit →
    out.length ≠ 0 → wordLen start ≤ out.length →
    ∃ tested closing events result,
      Tells (Prime.nextPrime fuel out start trials k bitLimit)
        (Trapping.nextPrime fuel out start trials k bitLimit)
        (InPlace.nextPrime fuel out start trials k bitLimit) (Prime.nextPrimeDepth out.length k)
        events result ∧
      WalkEvents (fun _ => []) (Prime.primeOutcome fuel)
        ⟨trials, min bitLimit (out.length * w.bits), fuel⟩ out.length
        (Prime.survivors k (val start) (min bitLimit (out.length * w.bits))) tested closing events
        result ∧
      events.filter (·.level = .debug) = closing
  nextPrime_refused : ∀ (fuel : Nat) (out start : Limbs w) (trials k bitLimit : Nat),
    k ≤ FactorBase.size → trials < sizeLimit → w.bits * out.length < sizeLimit →
    (out.length = 0 ∨ out.length < wordLen start) →
    Tells (Prime.nextPrime fuel out start trials k bitLimit)
      (Trapping.nextPrime fuel out start trials k bitLimit)
      (InPlace.nextPrime fuel out start trials k bitLimit) (Prime.nextPrimeDepth out.length k) []
      (.ok (false, out))
  extendPrime : ∀ (σ : Type) [ByteSource σ] (fuel : Nat) (p : Limbs w) (bits : Nat)
    (q : Limbs w) (trials k : Nat) (source : σ), k ≤ FactorBase.size →
    w.bits * p.length < sizeLimit → w.bits * q.length < sizeLimit →
    Prime.Searchable p.length bits (val q) w →
    ∃ made announced closing events result,
      Tells (Prime.extendPrime fuel p bits q trials k source)
        (Trapping.extendPrime fuel p bits q trials k source)
        (extendPrime fuel p bits q trials k source) (Prime.extendPrimeDepth p.length q.length)
        events result ∧
      Prime.TrialEvents ⟨trials, k, bits, fuel⟩ p
        (fun x => 2 * (Prime.leastMultiplier bits (val q) + val x) * val q + 1)
        (Prime.searchDraws fuel p bits q trials source) made announced closing events result
  /-- An empty range is the whole log. -/
  extendPrime_empty : ∀ (σ : Type) [ByteSource σ] (fuel : Nat) (p : Limbs w) (bits : Nat)
    (q : Limbs w) (trials k : Nat) (source : σ), k ≤ FactorBase.size →
    w.bits * p.length < sizeLimit → w.bits * q.length < sizeLimit →
    2 ≤ bits → bits ≤ p.length * w.bits → val q ≠ 0 →
    Prime.greatestMultiplier bits (val q) < Prime.leastMultiplier bits (val q) →
    Tells (Prime.extendPrime fuel p bits q trials k source)
      (Trapping.extendPrime fuel p bits q trials k source)
      (InPlace.extendPrime fuel p bits q trials k source)
      (Prime.extendPrimeDepth p.length q.length) [.emptyRange bits] (.ok ((false, p), source))
  extendPrime_refused : ∀ (σ : Type) [ByteSource σ] (fuel : Nat) (p : Limbs w) (bits : Nat)
    (q : Limbs w) (trials k : Nat) (source : σ), k ≤ FactorBase.size →
    w.bits * p.length < sizeLimit → w.bits * q.length < sizeLimit →
    (bits < 2 ∨ p.length * w.bits < bits ∨ val q = 0) →
    Tells (Prime.extendPrime fuel p bits q trials k source)
      (Trapping.extendPrime fuel p bits q trials k source)
      (InPlace.extendPrime fuel p bits q trials k source)
      (Prime.extendPrimeDepth p.length q.length) [] (.ok ((false, p), source))

/-- The log of a search is faithful to its run. -/
theorem search_events_faithful (w : Width) : FaithfulEvents w where
  nextPrimeWith _ fuel _ start _ test trials _ bitLimit hlook hk htrials hbits hn hroom := by
    rw [nextPrimeWith_look hlook test.run fuel start trials bitLimit hk hbits]
    exact nextPrimeWith_events test fuel bitLimit hk htrials hbits hn hroom
  nextPrime_asks _ _ _ _ _ _ _ _ := rfl
  nextPrime fuel _ _ _ _ bitLimit hk htrials hbits hn hroom :=
    nextPrime_events fuel bitLimit hk htrials hbits hn hroom
  nextPrime_refused fuel _ _ _ _ bitLimit hk htrials hbits hargs :=
    nextPrime_refused fuel bitLimit hk htrials hbits hargs
  extendPrime σ _ fuel p bits q trials k source hk hp hq hsearch := by
    obtain ⟨made, announced, closing, events, result, hrun, hevents⟩ :=
      Prime.extendPrime_events fuel trials source hk hsearch
    exact ⟨made, announced, closing, events, result,
      extendPrime_tells fuel trials source hk hp hq hrun, hevents⟩
  extendPrime_empty σ _ fuel p bits q trials k source hk hp hq hbits hfit hpos hlt :=
    extendPrime_tells fuel trials source hk hp hq
      (Prime.extendPrime_empty fuel trials source hk hbits hfit hpos hlt)
  extendPrime_refused σ _ fuel p bits q trials k source hk hp hq hargs :=
    extendPrime_refused fuel trials source hk hp hq hargs

/-- In one word: nothing from eight on has three bits, eleven is found at once, no prime
of two bits is 1 modulo 10, and with no trial allowed all are used up. -/
theorem search_events_faithful_one_word :
    ((nextPrime 1 ([0] : Limbs .w64) [8] 5 10 3).run (zeros 22)).events =
        [.bitLimitReached 0 3] ∧
      ((nextPrime 1 ([0] : Limbs .w64) [11] 5 10 64).run (zeros 22)).events =
        [.testingCandidate 1 4, .candidateFound 1 4] ∧
      ((extendPrime 1 ([0] : Limbs .w32) 2 [5] 5 10 (Finite.mk [9])).run (zeros 28)).events =
        [.emptyRange 2] ∧
      ((extendPrime 1 ([0] : Limbs .w32) 5 [3] 0 10 (Finite.mk [9])).run (zeros 28)).events =
        [.drawsExhausted 0 5] := by
  refine ⟨?_, ?_, ?_, ?_⟩
  · obtain ⟨tested, closing, events, result, htells, hevents, -⟩ :=
      (search_events_faithful .w64).nextPrime 1 [0] [8] 5 10 3 (by decide) (by decide) (by decide)
        (by decide) (by decide)
    have htold := hevents.told
    have hnone : tested = [] := List.map_eq_nil_iff.mp (List.prefix_nil.mp hevents.candidates)
    rw [(htells.inPlace.run (by decide)).1]
    cases hevents.exit with
    | found => simp at hnone
    | exhausted _ hcount => simp [hnone] at hcount
    | tooLong => rw [htold, hnone]; rfl
    | @overflow _ out _ _ hfits htop =>
        rw [bitLen_eq_size, Nat.size_le] at hfits
        have hlow : val out < 2 ^ 3 := hfits
        have hhigh : 2 ^ 64 ≤ val out + 2 := htop
        omega
    | unanswered => simp at hnone
  · obtain ⟨tested, closing, events, result, htells, hevents, -⟩ :=
      (search_events_faithful .w64).nextPrime 1 [0] [11] 5 10 64 (by decide) (by decide)
        (by decide) (by decide) (by decide)
    have hsurvivors : Prime.survivors 10 (val ([11] : Limbs .w64)) 64 =
        11 :: Prime.survivors 10 13 64 :=
      Prime.survivors_cons (by decide) (by decide) (by decide) (by decide)
    rw [(htells.inPlace.run (by decide)).1]
    refine WalkEvents.found_first (hsurvivors ▸ hevents) (by decide) fun a ha => ?_
    rw [Prime.primeOutcome_small (by rw [ha]; decide), ha]
    rfl
  · have htells := (search_events_faithful .w32).extendPrime_empty Finite 1 [0] 2 [5] 5 10
      (Finite.mk [9]) (by decide) (by decide) (by decide) (by decide) (by decide) (by decide)
      (by decide)
    exact (htells.inPlace.run (by decide)).1
  · obtain ⟨made, announced, closing, events, result, htells, hevents⟩ :=
      (search_events_faithful .w32).extendPrime Finite 1 [0] 5 [3] 0 10 (Finite.mk [9]) (by decide)
        (by decide) (by decide) ⟨by decide, by decide, by decide, by decide⟩
    have htold := hevents.told
    have hnone : made = [] := List.length_eq_zero_iff.mp (Nat.le_zero.mp hevents.count)
    have hquiet : announced = [] := by
      refine List.eq_nil_iff_forall_not_mem.mpr fun i hi => ?_
      obtain ⟨-, x, hx, -⟩ := (hevents.survivors i).mp hi
      simp [hnone] at hx
    rw [(htells.inPlace.run (by decide)).1]
    cases hevents.exit with
    | found => simp at hnone
    | sourceFailed _ hsource => contradiction
    | exhausted => rw [htold, hquiet]; rfl
    | drawUnanswered _ hsource => contradiction
    | testUnanswered => simp at hnone

end CryptoPrimes.InPlace
