import CryptoPrimes.Proofs.Prime.Extend

/-!
# The events of the search for a prime with a given factor

A run of the trials is told by the draws it made and by its exit.  A draw whose
candidate comes through the sieve is announced with the number of its trial, and the
others are passed over in silence, so the numbers that are announced ascend and have
gaps (`survivingTrials`).  Each exit reports one event (`TrialsClose`, with a
constructor for each); only a draw or a test without an answer ends the run in
silence.

The trials are followed with the draws that have failed so far, as many as the number
of the trial says, less one.
-/

namespace CryptoPrimes.Prime

open Limbs

variable {w : Width} {σ : Type}

/-! ## Trials that are announced -/

/-- The trials whose candidates survive, the first draw being that of trial `i`. -/
def survivingTrials (k : Nat) (number : Limbs w → Nat) : Nat → List (Limbs w) → List Nat
  | _, [] => []
  | i, x :: xs =>
    if Survives k (number x) then i :: survivingTrials k number (i + 1) xs
    else survivingTrials k number (i + 1) xs

section

variable {k : Nat} {number : Limbs w → Nat} {i : Nat} {xs : List (Limbs w)}

theorem mem_survivingTrials_iff {j : Nat} :
    j ∈ survivingTrials k number i xs ↔
      i ≤ j ∧ ∃ x, xs[j - i]? = some x ∧ Survives k (number x) := by
  induction xs generalizing i with
  | nil => simp [survivingTrials]
  | cons x xs ih =>
      have hhead : j ∈ survivingTrials k number i (x :: xs) ↔
          j = i ∧ Survives k (number x) ∨ j ∈ survivingTrials k number (i + 1) xs := by
        rw [survivingTrials]
        split
        · next hs => rw [List.mem_cons, and_iff_left hs]
        · next hs => simp [hs]
      rw [hhead, ih]
      rcases Nat.lt_trichotomy j i with hlt | rfl | hgt
      · omega
      · simp
      · have hskip : j - i = j - (i + 1) + 1 := by omega
        rw [hskip, List.getElem?_cons_succ]
        constructor
        · rintro (⟨rfl, -⟩ | ⟨-, hrest⟩)
          · omega
          · exact ⟨hgt.le, hrest⟩
        · rintro ⟨-, hrest⟩
          exact .inr ⟨hgt, hrest⟩

theorem survivingTrials_sorted (k : Nat) (number : Limbs w → Nat) (i : Nat)
    (xs : List (Limbs w)) : (survivingTrials k number i xs).Pairwise (· < ·) := by
  induction xs generalizing i with
  | nil => exact List.Pairwise.nil
  | cons x xs ih =>
      rw [survivingTrials]
      split
      · refine List.pairwise_cons.mpr ⟨fun j hj => ?_, ih (i + 1)⟩
        exact (mem_survivingTrials_iff.mp hj).1
      · exact ih (i + 1)

theorem mem_survivingTrials_bounds {j : Nat} (hj : j ∈ survivingTrials k number i xs) :
    i ≤ j ∧ j < i + xs.length := by
  obtain ⟨hle, x, hx, -⟩ := mem_survivingTrials_iff.mp hj
  have := (List.getElem?_eq_some_iff.mp hx).1
  omega

/-- The last draw survives, so its trial is the last that is announced. -/
theorem getLast?_survivingTrials {x : Limbs w} (hx : Survives k (number x)) :
    (survivingTrials k number i (xs ++ [x])).getLast? = some (i + xs.length) := by
  induction xs generalizing i with
  | nil =>
      rw [List.nil_append, survivingTrials, if_pos hx]
      rfl
  | cons y ys ih =>
      have hrest := ih (i := i + 1)
      rw [List.length_cons, List.cons_append, survivingTrials]
      split
      · rw [List.getLast?_cons, hrest, Option.getD_some]
        congr 1
        omega
      · rw [hrest]
        congr 1
        omega

end

/-! ## Exits -/

variable (limits : TrialLimits) (p : Limbs w) (number : Limbs w → Nat)

/-- A draw that gives no prime: its candidate is sieved out, or not accepted. -/
def Fails (k : Nat) (number : Limbs w → Nat) (x : Limbs w) : Prop :=
  ¬ (Survives k (number x) ∧ Accepted w (number x))

/-- How the trials on the draws `drawn` end after those that are given: what is
reported then, and the result. -/
inductive TrialsClose (drawn : List (Limbs w) × Checked Bool) :
    List (Limbs w) → List Event → Checked ((Bool × Limbs w) × σ) → Prop
  | found {failed : List (Limbs w)} {x out : Limbs w} {source : σ}
      (hfailed : ∀ y ∈ failed, Fails limits.sieve number y)
      (hsurvives : Survives limits.sieve (number x)) (haccepted : Accepted w (number x))
      (hout : val out = number x) :
      TrialsClose drawn (failed ++ [x]) [.drawFound (failed.length + 1) limits.bits]
        (.ok ((true, out), source))
  | sourceFailed {source : σ} (hfailed : ∀ y ∈ drawn.1, Fails limits.sieve number y)
      (hsource : drawn.2 = .ok false) :
      TrialsClose drawn drawn.1 [.sourceFailed (drawn.1.length + 1)] (.ok ((false, p), source))
  | exhausted {source : σ} (hfailed : ∀ y ∈ drawn.1, Fails limits.sieve number y)
      (hsource : drawn.2 = .ok true) (hcount : drawn.1.length = limits.trials) :
      TrialsClose drawn drawn.1 [.drawsExhausted limits.trials limits.bits]
        (.ok ((false, p), source))
  | drawUnanswered (hfailed : ∀ y ∈ drawn.1, Fails limits.sieve number y) {fault : Fault}
      (hsource : drawn.2 = .error fault) : TrialsClose drawn drawn.1 [] (.error fault)
  | testUnanswered {failed : List (Limbs w)} {x : Limbs w} {fault : Fault}
      (hfailed : ∀ y ∈ failed, Fails limits.sieve number y)
      (hsurvives : Survives limits.sieve (number x))
      (hfault : Unanswered w limits.fuel (number x)) :
      TrialsClose drawn (failed ++ [x]) [] (.error fault)

section

variable {limits p number} {drawn : List (Limbs w) × Checked Bool} {made : List (Limbs w)}
  {closing : List Event} {out : Limbs w} {source : σ}

/-- A prime is the candidate of the last draw that was made. -/
theorem TrialsClose.last_survives
    (h : TrialsClose limits p number drawn made closing (.ok ((true, out), source))) :
    ∃ failed x, made = failed ++ [x] ∧ Survives limits.sieve (number x) := by
  cases h with
  | found _ hsurvives _ _ => exact ⟨_, _, rfl, hsurvives⟩

/-- A prime is reported, and nothing else is reported like one. -/
theorem TrialsClose.found_iff {found : Bool}
    (h : TrialsClose limits p number drawn made closing (.ok ((found, out), source))) :
    found = true ↔ closing = [.drawFound made.length limits.bits] := by
  cases h with
  | found => simp
  | sourceFailed => simp
  | exhausted => simp

theorem TrialsClose.level_eq {result : Checked ((Bool × Limbs w) × σ)}
    (h : TrialsClose limits p number drawn made closing result) :
    ∀ event ∈ closing, event.level = .debug := by
  cases h with
  | found => simp [Event.level]
  | sourceFailed => simp [Event.level]
  | exhausted => simp [Event.level]
  | drawUnanswered => simp
  | testUnanswered => simp

end

/-- The events and the result of the trials on the draws `drawn`, of which the first
ones are made: the trials whose candidates survive are announced in order, and then
comes the exit. -/
structure TrialEvents (drawn : List (Limbs w) × Checked Bool) (made : List (Limbs w))
    (announced : List Nat) (closing events : List Event)
    (result : Checked ((Bool × Limbs w) × σ)) : Prop where
  told : events = announced.map (.testingDraw · limits.bits) ++ closing
  draws : made <+: drawn.1
  count : made.length ≤ limits.trials
  ascending : announced.Pairwise (· < ·)
  inRange : ∀ i ∈ announced, 1 ≤ i ∧ i ≤ limits.trials
  survivors : ∀ i, i ∈ announced ↔
    1 ≤ i ∧ ∃ x, made[i - 1]? = some x ∧ Survives limits.sieve (number x)
  exit : TrialsClose limits p number drawn made closing result
  debug : events.filter (·.level = .debug) = closing
  found_iff : ∀ found out source, result = .ok ((found, out), source) →
    (found = true ↔ closing = [.drawFound made.length limits.bits])
  /-- A prime is found in the trial that was announced last. -/
  found_last : ∀ out source, result = .ok ((true, out), source) →
    announced.getLast? = some made.length

/-! ## The trials -/

section Trials

variable [ByteSource σ]

/-- Trials that go on after the failed draws, with the draws `drawn` before them. -/
def TriesOn (failed : List (Limbs w)) (drawn : List (Limbs w) × Checked Bool)
    (trials : Search w ((Bool × Limbs w) × σ)) : Prop :=
  ∃ made closing result,
    Search.Computes trials (isPrimeDepth p.length)
      ((survivingTrials limits.sieve number (failed.length + 1) made).map
        (.testingDraw · limits.bits) ++ closing) result ∧
    made <+: drawn.1 ∧
    TrialsClose limits p number (failed ++ drawn.1, drawn.2) (failed ++ made) closing result

variable {limits p number} {range : Multipliers w} {x : Limbs w} {source rest : σ}

/-- One trial, if the later ones go on as they should. -/
theorem trial_events {failed : List (Limbs w)} {drawn : List (Limbs w) × Checked Bool}
    {remaining : Nat}
    (hdraw : sampleBelow limits.fuel range.count.length range.count source = .ok (some x, rest))
    (hbitLen : bitLen (range.candidate x) = limits.bits)
    (hlen : ((range.candidate x).take p.length).length = p.length)
    (hvalue : val (range.candidate x) = number x)
    (hval : val ((range.candidate x).take p.length) = val (range.candidate x))
    (hfailed : ∀ y ∈ failed, Fails limits.sieve number y)
    (hrest : (∀ y ∈ failed ++ [x], Fails limits.sieve number y) →
      TriesOn limits p number (failed ++ [x]) drawn
        (runTrials limits range p remaining (failed.length + 1 + 1) rest)) :
    TriesOn limits p number failed (x :: drawn.1, drawn.2)
      (runTrials limits range p (remaining + 1) (failed.length + 1) source) := by
  have hresult : val ((range.candidate x).take p.length) = number x := hval.trans hvalue
  have hfirst : [x] <+: x :: drawn.1 := List.prefix_append [x] _
  have hiff : survivesSieve limits.sieve (range.candidate x) = true ↔
      Survives limits.sieve (number x) := by rw [survivesSieve_iff, hvalue]
  -- what a later trial leaves to be shown
  have hlater (hx : Fails limits.sieve number x) : ∃ made closing result,
      Search.Computes (runTrials limits range p remaining (failed.length + 1 + 1) rest)
        (isPrimeDepth p.length) ((survivingTrials limits.sieve number (failed.length + 1 + 1)
          made).map (.testingDraw · limits.bits) ++ closing) result ∧
      x :: made <+: x :: drawn.1 ∧
      TrialsClose limits p number (failed ++ x :: drawn.1, drawn.2) (failed ++ x :: made)
        closing result := by
    obtain ⟨made, closing, result, hrun, hmade, hcloses⟩ :=
      hrest (List.forall_mem_append.mpr ⟨hfailed, by simpa using hx⟩)
    rw [List.length_append, List.length_singleton] at hrun
    rw [← List.append_cons, ← List.append_cons] at hcloses
    exact ⟨made, closing, result, hrun, (List.prefix_cons_inj x).mpr hmade, hcloses⟩
  by_cases hs : Survives limits.sieve (number x)
  · cases hout : primeOutcome limits.fuel ((range.candidate x).take p.length) with
    | error fault =>
        refine ⟨[x], [], .error fault, ?_, hfirst, .testUnanswered hfailed hs
          (hresult ▸ unanswered_of_outcome hout)⟩
        rw [survivingTrials, if_pos hs]
        exact trial_tested hdraw hbitLen hlen (hiff.mpr hs) remaining _
          (by rw [hout]; exact ⟨rfl, rfl⟩)
    | ok accepted =>
        cases accepted with
        | true =>
            refine ⟨[x], _, .ok ((true, (range.candidate x).take p.length), rest), ?_, hfirst,
              .found hfailed hs (hresult ▸ accepted_of_outcome hout) hresult⟩
            rw [survivingTrials, if_pos hs]
            exact trial_tested hdraw hbitLen hlen (hiff.mpr hs) remaining _
              (by rw [hout]; exact ⟨rfl, rfl⟩)
        | false =>
            obtain ⟨made, closing, result, hrun, hmade, hcloses⟩ :=
              hlater fun h => not_accepted_of_outcome hout (hresult ▸ h.2)
            refine ⟨x :: made, closing, result, ?_, hmade, hcloses⟩
            rw [survivingTrials, if_pos hs]
            exact trial_tested hdraw hbitLen hlen (hiff.mpr hs) remaining _
              (by rw [hout]; exact hrun)
  · obtain ⟨made, closing, result, hrun, hmade, hcloses⟩ := hlater fun h => hs h.1
    refine ⟨x :: made, closing, result, ?_, hmade, hcloses⟩
    rw [survivingTrials, if_neg hs]
    exact trial_sieved hdraw hbitLen (mt hiff.mp hs) hrun

variable (limits) in
/-- The trials make some first draws and end. -/
theorem runTrials_events {m q : Nat} (hspans : range.Spans m limits.bits q)
    (hfits : Fits w m limits.bits q)
    (hle : leastMultiplier limits.bits q ≤ greatestMultiplier limits.bits q)
    (hp : limits.bits ≤ p.length * w.bits) (hroom : p.length ≤ m) {failed : List (Limbs w)}
    {remaining : Nat} (hcount : failed.length + remaining = limits.trials)
    (hnumber : ∀ x, number x = 2 * (leastMultiplier limits.bits q + val x) * q + 1)
    (hfailed : ∀ y ∈ failed, Fails limits.sieve number y) (source : σ) :
    TriesOn limits p number failed (drawnBelow limits.fuel range.count remaining source)
      (runTrials limits range p remaining (failed.length + 1) source) := by
  induction remaining generalizing failed source with
  | zero =>
      refine ⟨[], _, .ok ((false, p), source), Search.computes_report _ _ _, List.nil_prefix, ?_⟩
      rw [drawnBelow, List.append_nil]
      exact .exhausted hfailed rfl hcount
  | succ remaining ih =>
      rw [drawnBelow]
      rcases trial_cases limits hspans hfits hle hp hroom remaining (failed.length + 1) source with
        ⟨hdraw, hrun⟩ | ⟨rest, hdraw, hrun⟩ | ⟨x, rest, hdraw, hbitLen, hlen, hvalue, hval⟩
      · rw [hdraw]
        refine ⟨[], [], .error .outOfFuel, hrun, List.nil_prefix, ?_⟩
        rw [List.append_nil]
        exact .drawUnanswered hfailed rfl
      · rw [hdraw]
        refine ⟨[], _, .ok ((false, p), rest), hrun, List.nil_prefix, ?_⟩
        rw [List.append_nil]
        exact .sourceFailed hfailed rfl
      · rw [hdraw]
        refine trial_events hdraw hbitLen hlen (hvalue.trans (hnumber x).symm) hval hfailed
          fun hfailed' => ?_
        have hcount' : (failed ++ [x]).length + remaining = limits.trials := by
          rw [List.length_append, List.length_singleton]
          omega
        have hnext := ih hcount' hfailed' rest
        rwa [List.length_append, List.length_singleton] at hnext

omit [ByteSource σ] in
/-- From the first trial on the whole run is told. -/
theorem TriesOn.trialEvents {drawn : List (Limbs w) × Checked Bool}
    {trials : Search w ((Bool × Limbs w) × σ)} (hcount : drawn.1.length ≤ limits.trials)
    (h : TriesOn limits p number [] drawn trials) :
    ∃ made announced closing events result,
      Search.Computes trials (isPrimeDepth p.length) events result ∧
      TrialEvents limits p number drawn made announced closing events result := by
  obtain ⟨made, closing, result, hrun, hmade, hcloses⟩ := h
  rw [List.length_nil, Nat.zero_add] at hrun
  have hcount' := hmade.length_le.trans hcount
  refine ⟨made, survivingTrials limits.sieve number 1 made, closing, _, result, hrun, rfl, hmade,
    hcount', survivingTrials_sorted _ _ _ _, ?_, fun i => mem_survivingTrials_iff, hcloses, ?_, ?_,
    ?_⟩
  · intro i hi
    have := mem_survivingTrials_bounds hi
    omega
  · refine Search.filter_debug ?_ hcloses.level_eq
    simp [Event.level]
  · rintro found out source rfl
    exact hcloses.found_iff
  · rintro out source rfl
    obtain ⟨failed, x, rfl, hsurvives⟩ := TrialsClose.last_survives hcloses
    rw [getLast?_survivingTrials hsurvives, List.length_append, List.length_singleton,
      Nat.add_comm]

/-! ## The whole search -/

/-- A search that has something to draw makes its trials and nothing else. -/
theorem extendPrime_events {bits k : Nat} {p q : Limbs w} (fuel trials : Nat) (source : σ)
    (hk : k ≤ FactorBase.size) (hsearch : Searchable p.length bits (val q) w) :
    ∃ made announced closing events result,
      Search.Computes (extendPrime fuel p bits q trials k source)
        (extendPrimeDepth p.length q.length) events result ∧
      TrialEvents ⟨trials, k, bits, fuel⟩ p
        (fun x => 2 * (leastMultiplier bits (val q) + val x) * val q + 1)
        (searchDraws fuel p bits q trials source) made announced closing events result := by
  obtain ⟨hbits, hp, hq, hle⟩ := hsearch
  have hfits := fits_workingWords hbits hp hq
  obtain ⟨range, hspans, hopens⟩ := extendPrime_opens fuel trials source hk hbits hp hq
  have hcount : ([] : List (Limbs w)).length + trials = trials := Nat.zero_add trials
  have htries := runTrials_events ⟨trials, k, bits, fuel⟩ hspans hfits hle hp
    (le_workingWords _ _).1 hcount (fun _ => rfl) (by simp) source
  rw [count_eq hspans hfits hle] at htries
  obtain ⟨made, announced, closing, events, result, hrun, hevents⟩ :=
    htries.trialEvents (length_searchDraws fuel p bits q trials source)
  have hnonempty : ¬ less range.greatest range.least = true := by
    rw [less_iff, hspans.greatest_val, hspans.least_val]
    omega
  rw [if_neg hnonempty] at hopens
  exact ⟨made, announced, closing, events, result, hopens _ _ hrun, hevents⟩

end Trials

end CryptoPrimes.Prime
