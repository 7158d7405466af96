import CryptoPrimes.Proofs.InPlace.Next

/-!
# The events of the upward search

A run of the upward search is told by the candidates it tested, in order, and by its
exit.  Each test is announced with its number, counted from one, and with the bit
length of its candidate (`testEvents`); what the test itself reports stands right
behind that, so there is one announcement for each call of the test and none besides.
After the tests comes what the exit reports, one event or none (`WalkCloses`, with a
constructor for each exit).

The walk is followed with the candidates it has rejected so far.  They are behind it:
a step adds its candidate to them if the test rejects it, leaves them as they are if
the sieve does, and the count of tests is their number at each step.
-/

namespace CryptoPrimes.InPlace

open Limbs CryptoPrimes.Modular Trapping

variable {w : Width} {n depth : Nat}

/-! ## Tests and exits -/

/-- A test of numbers of `n` words: what it reports about each, and its answer. -/
structure CandidateTest (w : Width) (n depth : Nat) where
  run : Limbs w → Search w Bool
  notes : Limbs w → List Event
  answer : Limbs w → Checked Bool
  computes : ∀ a : Limbs w, a.length = n → Search.Computes (run a) depth (notes a) (answer a)

/-- The prime test reports nothing. -/
def primeTest (fuel : Nat) (hbits : w.bits * n < sizeLimit) :
    CandidateTest w n (Prime.isPrimeDepth n) where
  run := askPrime fuel
  notes _ := []
  answer := Prime.primeOutcome fuel
  computes a ha := by
    subst ha
    exact Search.computes_quietly
      ((follows_isPrime fuel a).computes (isPrime_agree hbits fuel).trapping)

/-- The tests of the given candidates, the first as number `i`. -/
def testEvents (notes : Limbs w → List Event) : Nat → List (Limbs w) → List Event
  | _, [] => []
  | i, c :: cs =>
    .testingCandidate i (Limbs.bitLen c) :: (notes c ++ testEvents notes (i + 1) cs)

/-- How a walk through numbers of `n` words, of which `survivors` are to be tested,
ends after the tests of the given candidates: what it reports then, and its result.
A candidate whose test gives no answer ends it like one that is accepted. -/
inductive WalkCloses (answer : Limbs w → Checked Bool) (limits : Prime.WalkLimits) (n : Nat)
    (survivors : List Nat) : List (Limbs w) → List Event → Checked (Bool × Limbs w) → Prop
  | found {rejected : List (Limbs w)} {c : Limbs w}
      (hrejected : ∀ b ∈ rejected, answer b = .ok false) (hfound : answer c = .ok true) :
      WalkCloses answer limits n survivors (rejected ++ [c])
        [.candidateFound (rejected.length + 1) (Limbs.bitLen c)] (.ok (true, c))
  | exhausted {rejected : List (Limbs w)} {out : Limbs w}
      (hrejected : ∀ b ∈ rejected, answer b = .ok false)
      (hcount : rejected.length = limits.trials)
      (hwaiting : (rejected ++ [out]).map val <+: survivors) :
      WalkCloses answer limits n survivors rejected [.candidatesExhausted limits.trials]
        (.ok (false, out))
  | tooLong {rejected : List (Limbs w)} {out : Limbs w}
      (hrejected : ∀ b ∈ rejected, answer b = .ok false) (hall : rejected.map val = survivors)
      (hlong : limits.bits < Limbs.bitLen out) :
      WalkCloses answer limits n survivors rejected
        [.bitLimitReached rejected.length limits.bits] (.ok (false, out))
  | overflow {rejected : List (Limbs w)} {out : Limbs w}
      (hrejected : ∀ b ∈ rejected, answer b = .ok false) (hall : rejected.map val = survivors)
      (hfits : Limbs.bitLen out ≤ limits.bits) (htop : 2 ^ (w.bits * n) ≤ val out + 2) :
      WalkCloses answer limits n survivors rejected [] (.ok (false, (addWord out 2).1))
  | unanswered {rejected : List (Limbs w)} {c : Limbs w} {fault : Fault}
      (hrejected : ∀ b ∈ rejected, answer b = .ok false) (hfault : answer c = .error fault) :
      WalkCloses answer limits n survivors (rejected ++ [c]) [] (.error fault)

section

variable {answer : Limbs w → Checked Bool} {limits : Prime.WalkLimits} {survivors : List Nat}
  {tested : List (Limbs w)} {closing : List Event}

/-- A prime is reported, and nothing else is reported like one. -/
theorem WalkCloses.found_iff {found : Bool} {out : Limbs w}
    (h : WalkCloses answer limits n survivors tested closing (.ok (found, out))) :
    found = true ↔ closing = [.candidateFound tested.length (Limbs.bitLen out)] := by
  cases h with
  | found => simp
  | exhausted => simp
  | tooLong => simp
  | overflow => simp

theorem WalkCloses.level_eq {result : Checked (Bool × Limbs w)}
    (h : WalkCloses answer limits n survivors tested closing result) :
    ∀ event ∈ closing, event.level = .debug := by
  cases h with
  | found => simp [Event.level]
  | exhausted => simp [Event.level]
  | tooLong => simp [Event.level]
  | overflow => simp
  | unanswered => simp

end

/-- The events and the result of a walk with `survivors` to be tested: the tests of the
first of them, as many as allowed at most, and then the exit. -/
structure WalkEvents (notes : Limbs w → List Event) (answer : Limbs w → Checked Bool)
    (limits : Prime.WalkLimits) (n : Nat) (survivors : List Nat) (tested : List (Limbs w))
    (closing events : List Event) (result : Checked (Bool × Limbs w)) : Prop where
  told : events = testEvents notes 1 tested ++ closing
  count : tested.length ≤ limits.trials
  candidates : tested.map val <+: survivors
  exit : WalkCloses answer limits n survivors tested closing result
  found_iff : ∀ found out, result = .ok (found, out) →
    (found = true ↔ closing = [.candidateFound tested.length (Limbs.bitLen out)])

/-- Tests are traced. -/
theorem level_testEvents (i : Nat) (tested : List (Limbs w)) :
    ∀ event ∈ testEvents (fun _ => []) i tested, event.level = .trace := by
  induction tested generalizing i with
  | nil => simp [testEvents]
  | cons c cs ih =>
      rw [testEvents, List.nil_append, List.forall_mem_cons]
      exact ⟨rfl, ih (i + 1)⟩

/-- If the tests report nothing, the exit is all that is worth more than a trace. -/
theorem WalkEvents.debug {answer : Limbs w → Checked Bool} {limits : Prime.WalkLimits}
    {survivors : List Nat} {tested : List (Limbs w)} {closing events : List Event}
    {result : Checked (Bool × Limbs w)}
    (h : WalkEvents (fun _ => []) answer limits n survivors tested closing events result) :
    events.filter (·.level = .debug) = closing := by
  rw [h.told]
  exact Search.filter_debug (level_testEvents 1 tested) h.exit.level_eq

/-- A first candidate that is accepted is the only one that is tested. -/
theorem WalkEvents.found_first {answer : Limbs w → Checked Bool} {limits : Prime.WalkLimits}
    {x : Nat} {rest : List Nat} {tested : List (Limbs w)} {closing events : List Event}
    {result : Checked (Bool × Limbs w)}
    (h : WalkEvents (fun _ => []) answer limits n (x :: rest) tested closing events result)
    (htrials : limits.trials ≠ 0) (haccepted : ∀ a, val a = x → answer a = .ok true) :
    events = [.testingCandidate 1 (Nat.size x), .candidateFound 1 (Nat.size x)] := by
  -- the head of the tested candidates cannot be among the rejected ones
  have hnone (rejected tail : List (Limbs w)) (hrejected : ∀ b ∈ rejected, answer b = .ok false)
      (hfirst : (rejected ++ tail).map val <+: x :: rest) : rejected = [] := by
    cases rejected with
    | nil => rfl
    | cons b bs =>
        have hval : val b = x := (List.cons_prefix_cons.mp hfirst).1
        have hreject := hrejected b List.mem_cons_self
        rw [haccepted b hval] at hreject
        contradiction
  have htold := h.told
  have hfirst := h.candidates
  cases h.exit with
  | found hrejected hfound =>
      obtain rfl := hnone _ _ hrejected hfirst
      have hval := (List.cons_prefix_cons.mp hfirst).1
      rw [htold, ← hval, ← bitLen_eq_size]
      rfl
  | exhausted hrejected hcount =>
      obtain rfl := hnone _ [] hrejected (by rwa [List.append_nil])
      exact absurd hcount.symm htrials
  | tooLong hrejected hall =>
      obtain rfl := hnone _ [] hrejected (by rwa [List.append_nil])
      contradiction
  | overflow hrejected hall =>
      obtain rfl := hnone _ [] hrejected (by rwa [List.append_nil])
      contradiction
  | unanswered hrejected hfault =>
      obtain rfl := hnone _ _ hrejected hfirst
      have hval := (List.cons_prefix_cons.mp hfirst).1
      rw [haccepted _ hval] at hfault
      contradiction

/-! ## One test -/

section Walk

variable (test : CandidateTest w n depth) (limits : Prime.WalkLimits)

/-- A test is announced, says what it has to say, and is reported again if it
accepts. -/
theorem testCandidateWith_computes {c : Limbs w} (hc : c.length = n)
    (hbits : w.bits * n < sizeLimit) (i : Nat) :
    Search.Computes (testCandidateWith test.run c i) depth
      (.testingCandidate i (Limbs.bitLen c) :: (test.notes c ++
        if test.answer c = .ok true then [.candidateFound i (Limbs.bitLen c)] else []))
      (test.answer c) := by
  have htest := test.computes c hc
  have hlen := bitLen_eq (a := c) (by rwa [hc])
  rw [testCandidateWith, attempt_bind hlen]
  refine Search.Computes.after_emit _ ?_
  cases hanswer : test.answer c with
  | error fault =>
      rw [hanswer] at htest
      rw [if_neg (by simp), List.append_nil]
      exact htest.bind_error
  | ok accepted =>
      rw [hanswer] at htest
      refine htest.bind ?_
      cases accepted with
      | true =>
          rw [if_pos rfl, if_pos rfl, attempt_bind hlen]
          exact Search.computes_report _ _ _
      | false =>
          rw [if_neg Bool.false_ne_true, if_neg (by simp)]
          exact (Search.computes_pure false).mono (Nat.zero_le _)

/-! ## The walk -/

/-- A walk that has rejected the given candidates tests the next survivors and ends. -/
def GoesOn (survivors : List Nat) (rejected : List (Limbs w))
    (search : Search w ((Bool × Limbs w) × Limbs w)) : Prop :=
  ∃ tested closing result left,
    Search.Computes search depth (testEvents test.notes (rejected.length + 1) tested ++ closing)
      (result.map fun r => (r, left)) ∧
    rejected.length + tested.length ≤ limits.trials ∧
    (rejected ++ tested).map val <+: survivors ∧
    WalkCloses test.answer limits n survivors (rejected ++ tested) closing result

/-- The candidates that a walk has behind it, with the numbers from `lo` on still
before it: they were all rejected, and no other survivor has been passed. -/
structure Behind (k : Nat) (survivors : List Nat) (rejected : List (Limbs w)) (lo : Nat) :
    Prop where
  refused : ∀ b ∈ rejected, test.answer b = .ok false
  count : rejected.length ≤ limits.trials
  passed : survivors = rejected.map val ++ Prime.survivors k lo limits.bits

variable {test limits} {k lo : Nat} {survivors : List Nat} {rejected : List (Limbs w)}
  {out : Limbs w}

theorem Behind.passed_first (h : Behind test limits k survivors rejected lo) :
    rejected.map val <+: survivors := by
  rw [h.passed]
  exact List.prefix_append _ _

/-- A walk that ends without another test. -/
theorem Behind.exit {search : Search w ((Bool × Limbs w) × Limbs w)} {closing : List Event}
    {result : Checked (Bool × Limbs w)} {left : Limbs w}
    (h : Behind test limits k survivors rejected lo)
    (hrun : Search.Computes search depth closing (result.map fun r => (r, left)))
    (hcloses : WalkCloses test.answer limits n survivors rejected closing result) :
    GoesOn test limits survivors rejected search := by
  refine ⟨[], closing, result, left, hrun, h.count, ?_, ?_⟩
  · rw [List.append_nil]
    exact h.passed_first
  · rwa [List.append_nil]

/-- A survivor that is tested, if the walk goes on as it should where the test
rejects it. -/
theorem Behind.test_step (h : Behind test limits k survivors rejected (val out))
    (hlen : out.length = n) (hbits : w.bits * n < sizeLimit)
    (hcount : rejected.length + 1 ≤ limits.trials)
    (hsurvivors : Prime.survivors k (val out) limits.bits =
      val out :: Prime.survivors k (val out + 2) limits.bits)
    {left : Limbs w} {next : Search w ((Bool × Limbs w) × Limbs w)}
    (hnext : Behind test limits k survivors (rejected ++ [out]) (val out + 2) →
      GoesOn test limits survivors (rejected ++ [out]) next) :
    GoesOn test limits survivors rejected (do
      let found ← testCandidateWith test.run out (rejected.length + 1)
      if found then pure ((true, out), left) else next) := by
  have htest := testCandidateWith_computes test hlen hbits (rejected.length + 1)
  have hpassed : survivors =
      (rejected ++ [out]).map val ++ Prime.survivors k (val out + 2) limits.bits := by
    rw [h.passed, hsurvivors, List.map_append, List.append_assoc]
    rfl
  have hfirst : (rejected ++ [out]).map val <+: survivors := by
    rw [hpassed]
    exact List.prefix_append _ _
  cases hanswer : test.answer out with
  | error fault =>
      rw [hanswer, if_neg (by simp), List.append_nil] at htest
      refine ⟨[out], [], .error fault, [], ?_, hcount, hfirst, .unanswered h.refused hanswer⟩
      rw [testEvents, testEvents, List.append_nil, List.append_nil]
      exact htest.bind_error
  | ok accepted =>
      rw [hanswer] at htest
      cases accepted with
      | true =>
          rw [if_pos rfl] at htest
          refine ⟨[out], _, .ok (true, out), left, ?_, hcount, hfirst,
            .found h.refused hanswer⟩
          rw [testEvents, testEvents, List.append_nil, List.cons_append]
          exact htest.bind_result rfl
      | false =>
          rw [if_neg (by simp), List.append_nil] at htest
          have hrejected : ∀ b ∈ rejected ++ [out], test.answer b = .ok false :=
            List.forall_mem_append.mpr ⟨h.refused, by simpa using hanswer⟩
          have hlength : (rejected ++ [out]).length = rejected.length + 1 := by
            rw [List.length_append, List.length_singleton]
          obtain ⟨tested, closing, result, left, hrun, hfew, hnextFirst, hcloses⟩ :=
            hnext ⟨hrejected, hlength.trans_le hcount, hpassed⟩
          rw [hlength] at hrun hfew
          rw [← List.append_cons] at hnextFirst hcloses
          refine ⟨out :: tested, closing, result, left, ?_, ?_, hnextFirst, hcloses⟩
          · rw [testEvents, List.cons_append, List.append_assoc, ← List.cons_append]
            exact htest.bind hrun
          · rw [List.length_cons]
            omega

/-- One candidate, if the walk goes on as it should behind it. -/
theorem walkWith_step (h : Behind test limits k survivors rejected (val out))
    (htrials : limits.trials < sizeLimit) (hlen : out.length = n) (hne : out ≠ [])
    (hbits : w.bits * n < sizeLimit) (hodd : val out % 2 = 1) (hthree : 3 ≤ val out)
    (hnext : ∀ rejected' : List (Limbs w), Limbs.bitLen out ≤ limits.bits →
      Behind test limits k survivors rejected' (val out + 2) →
      GoesOn test limits survivors rejected'
        (if (addWord out 2).2 = 0 then do
          let table ← attempt (stepResidues (words w (FactorBase.residueTable k (val out)))
            FactorBase.primes)
          walkWith passBy test.run limits (addWord out 2).1 table rejected'.length
        else return ((false, (addWord out 2).1), words w (FactorBase.residueTable k (val out))))) :
    GoesOn test limits survivors rejected
      (walkWith passBy test.run limits out (words w (FactorBase.residueTable k (val out)))
        rejected.length) := by
  have hlarge : FactorBase.largest < 2 ^ w.bits := by cases w <;> decide
  have hzero : (words w (FactorBase.residueTable k (val out))).all (· != 0) =
      (FactorBase.residueTable k (val out)).all (· != 0) :=
    all_words fun r hr => (residueTable_lt hr).trans hlarge
  rw [walkWith_eq passBy test.run limits hne (by rwa [hlen]), passBy, pure_bind, hzero]
  by_cases hlong : limits.bits < Limbs.bitLen out
  · have hall : rejected.map val = survivors := by
      have hpow : 2 ^ limits.bits ≤ val out := by
        rw [bitLen_eq_size, Nat.lt_size] at hlong
        exact hlong
      rw [h.passed, Prime.survivors_of_le hpow, List.append_nil]
    rw [if_pos hlong]
    exact h.exit (Search.computes_report _ _ _) (.tooLong h.refused hall hlong)
  rw [if_neg hlong]
  have hfits : val out < 2 ^ limits.bits := by
    rw [bitLen_eq_size, not_lt, Nat.size_le] at hlong
    exact hlong
  by_cases hs : Prime.Survives k (val out)
  · have hsurvivors := Prime.survivors_cons (k := k) hfits hthree hodd hs
    rw [(Prime.survives_iff k out).mpr hs, Bool.true_and]
    by_cases hdone : rejected.length = limits.trials
    · have hwaiting : (rejected ++ [out]).map val <+: survivors := by
        rw [h.passed, hsurvivors, List.map_append]
        exact (List.prefix_append_right_inj _).mpr (List.prefix_append [val out] _)
      rw [if_pos (beq_iff_eq.mpr hdone), hdone]
      exact h.exit (Search.computes_report _ _ _) (.exhausted h.refused hdone hwaiting)
    have hcount : rejected.length + 1 ≤ limits.trials := by
      have := h.count
      omega
    rw [if_neg (by rw [beq_iff_eq]; exact hdone)]
    simp only [if_true, attempt_bind (checkedSize_eq (hcount.trans_lt htrials))]
    refine h.test_step hlen hbits hcount hsurvivors fun hbehind => ?_
    have hgoes := hnext (rejected ++ [out]) (not_lt.mp hlong) hbehind
    rwa [List.length_append, List.length_singleton] at hgoes
  · -- sieved: the candidate is no survivor, and there is no test to count
    have hsieved : (Prime.isSmall out ||
        (FactorBase.residueTable k (val out)).all (· != 0)) = false := by
      rw [← Bool.not_eq_true, Prime.survives_iff]
      exact hs
    have hpassed := h.passed
    rw [Prime.survivors_skip hodd hs] at hpassed
    rw [hsieved, Bool.false_and]
    simp only [Bool.false_eq_true, if_false, pure_bind]
    exact hnext rejected (not_lt.mp hlong) ⟨h.refused, h.count, hpassed⟩

/-- The walk tests the next survivors and ends.  The induction is on the room left above
the candidate. -/
theorem walkWith_goesOn (h : Behind test limits k survivors rejected (val out))
    (htrials : limits.trials < sizeLimit) (hlimit : limits.bits ≤ n * w.bits)
    (hlen : out.length = n) (hn : n ≠ 0) (hbits : w.bits * n < sizeLimit)
    (hodd : val out % 2 = 1) (hthree : 3 ≤ val out) :
    GoesOn test limits survivors rejected
      (walkWith passBy test.run limits out (words w (FactorBase.residueTable k (val out)))
        rejected.length) := by
  induction hroom : 2 ^ (w.bits * n) - val out using Nat.strongRecOn generalizing out rejected with
  | ind room ih =>
      have hne : out ≠ [] := by
        rintro rfl
        exact hn hlen.symm
      have hlt := val_lt out
      have hsum := val_addWord out 2
      rw [hlen, Word.toNat_two] at hsum
      rw [hlen] at hlt
      apply walkWith_step h htrials hlen hne hbits hodd hthree
      intro rejected' hfits hbehind
      by_cases hcarry : (addWord out 2).2 = 0
      · rw [hcarry, Word.toNat_zero, Nat.mul_zero, Nat.add_zero] at hsum
        rw [← hsum] at hbehind
        rw [if_pos hcarry, attempt_bind (stepResidues_words k (val out)), ← hsum]
        exact ih _ (by omega) hbehind ((length_addWord out 2).trans hlen) (by omega) (by omega) rfl
      · -- past the top of the words, where no survivor is left
        have hpos : (addWord out 2).2.toNat ≠ 0 :=
          fun hzero => hcarry (Word.ext (by rw [hzero, Word.toNat_zero]))
        have hwrap := Nat.le_mul_of_pos_right (2 ^ (w.bits * n)) (Nat.pos_of_ne_zero hpos)
        have hpow : 2 ^ limits.bits ≤ 2 ^ (w.bits * n) :=
          Nat.pow_le_pow_right (by decide) (by rwa [Nat.mul_comm])
        have hall : rejected'.map val = survivors := by
          rw [hbehind.passed, Prime.survivors_of_le (by omega), List.append_nil]
        rw [if_neg hcarry]
        exact hbehind.exit ((Search.computes_pure _).mono (Nat.zero_le _))
          (.overflow hbehind.refused hall hfits (by omega))

end Walk

/-! ## The whole search -/

variable {k trials : Nat} {out start : Limbs w}

/-- The search tests first survivors from the start value on, and ends. -/
theorem nextPrimeWith_events (test : CandidateTest w out.length depth) (fuel bitLimit : Nat)
    (hk : k ≤ FactorBase.size) (htrials : trials < sizeLimit)
    (hbits : w.bits * out.length < sizeLimit) (hn : out.length ≠ 0)
    (hroom : wordLen start ≤ out.length) :
    ∃ tested closing events result,
      Search.Computes (nextPrimeWith passBy test.run fuel out start trials k bitLimit) (k + depth)
        events result ∧
      WalkEvents test.notes test.answer ⟨trials, min bitLimit (out.length * w.bits), fuel⟩
        out.length (Prime.survivors k (val start) (min bitLimit (out.length * w.bits))) tested
        closing events result := by
  obtain ⟨hlen, hval⟩ := Prime.firstCandidate_spec hn hroom
  have hbehind : Behind test ⟨trials, min bitLimit (out.length * w.bits), fuel⟩ k
      (Prime.survivors k (val start) (min bitLimit (out.length * w.bits))) []
      (val (Prime.firstCandidate out.length start)) := by
    refine ⟨by simp, Nat.zero_le _, ?_⟩
    rw [hval, Prime.survivors_first]
    rfl
  obtain ⟨tested, closing, result, left, hrun, hcount, hfirst, hcloses⟩ :=
    walkWith_goesOn hbehind htrials (Nat.min_le_right _ _) hlen hn hbits (by omega) (by omega)
  rw [List.length_nil, Nat.zero_add] at hcount
  refine ⟨tested, closing, _, result, ?_, rfl, hcount, hfirst, hcloses, ?_⟩
  · rw [nextPrimeWith, Search.ensure_bind hk, if_neg (by omega),
      attempt_bind (checkedSize_eq (by rwa [Nat.mul_comm])),
      attempt_bind (firstCandidate_eq hn hroom)]
    refine Search.Computes.withBuffer fun table htable => ⟨left, ?_⟩
    rw [attempt_bind (residues_eq hk htable _)]
    exact hrun
  · rintro found out rfl
    exact hcloses.found_iff

end CryptoPrimes.InPlace
