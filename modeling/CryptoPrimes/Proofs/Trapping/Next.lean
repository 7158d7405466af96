import CryptoPrimes.Proofs.Prime.Next
import CryptoPrimes.Proofs.Trapping.Test
import CryptoPrimes.Trapping.Search

/-!
# The trapping upward search does not trap

The walk keeps residues below their primes, so they can be stepped in a word; it
never tests more candidates than it may, so their number is a size; and a word is
there to be looked at, since the result has one at least.
-/

namespace CryptoPrimes.Trapping

open Limbs

variable {w : Width}

/-! ## The start -/

theorem isZero_tail_iff (x : Word w) (xs : Limbs w) : isZero xs = true ↔ wordLen (x :: xs) ≤ 1 := by
  have hx := x.toNat_lt
  rw [isZero_iff, wordLen_le_iff, Nat.mul_one, val_cons]
  constructor
  · intro h
    rw [h, Nat.mul_zero, Nat.add_zero]
    exact hx
  · intro h
    by_contra hne
    have := Nat.le_mul_of_pos_right (2 ^ w.bits) (Nat.pos_of_ne_zero hne)
    omega

theorem firstCandidate_eq {n : Nat} (hn : n ≠ 0) {start : Limbs w} (hroom : wordLen start ≤ n) :
    firstCandidate n start = .ok (Prime.firstCandidate n start) := by
  have hlength : (extend (trim start) n).length = n :=
    length_extend ((length_trim start).trans_le hroom)
  have hwords : wordLen (extend (trim start) n) = wordLen start :=
    wordLen_congr ((val_extend _ _).trans (val_trim start))
  rw [firstCandidate, slice_significant, Checked.ok_bind, write_zeros (length_trim start) hroom,
    Checked.ok_bind, Prime.firstCandidate]
  generalize extend (trim start) n = first at *
  cases first with
  | nil => exact absurd hlength.symm hn
  | cons x xs =>
      have hsmall : (isZero xs && decide (x < 3)) = true ↔ wordLen start ≤ 1 ∧ x < 3 := by
        rw [Bool.and_eq_true, decide_eq_true_iff, isZero_tail_iff x, hwords]
      have hset (y : Word w) : setWord (x :: xs) 0 y = .ok (y :: xs) :=
        setWord_append (a := []) rfl y
      rw [wordAt_zero (List.cons_ne_nil x xs), Checked.ok_bind, hset, List.headD_cons]
      dsimp only
      by_cases h : wordLen start ≤ 1 ∧ x < 3
      · rw [if_pos h, if_pos (hsmall.mpr h)]
      · rw [if_neg h, if_neg (fun h' => h (hsmall.mp h'))]

/-! ## One candidate -/

theorem stepResidues_eq {rs : List Nat} (hrs : ∀ r ∈ rs, r < FactorBase.largest)
    (ps : List Nat) :
    stepResidues w rs ps =
      .ok (List.zipWith (fun r p => if p ≤ r + 2 then r + 2 - p else r + 2) rs ps) := by
  induction rs generalizing ps with
  | nil => rfl
  | cons r rs ih =>
      cases ps with
      | nil => rfl
      | cons p ps =>
          rw [List.forall_mem_cons] at hrs
          have hfits : r + 2 < 2 ^ w.bits := by
            have hlarge : FactorBase.largest + 2 < 2 ^ w.bits := by cases w <;> decide
            omega
          rw [stepResidues, singleWord_eq hfits, Checked.ok_bind, ih hrs.2, List.zipWith_cons_cons]
          by_cases hp : p ≤ r + 2
          · rw [if_pos hp, if_pos hp, difference_eq hp]
            rfl
          · rw [if_neg hp, if_neg hp]
            rfl

theorem residueTable_lt {k n r : Nat} (hr : r ∈ FactorBase.residueTable k n) :
    r < FactorBase.largest := by
  obtain ⟨p, hp, rfl⟩ := List.mem_map.mp hr
  have hmem := List.mem_of_mem_take hp
  have hpos := FactorBase.pos_of_mem hmem
  exact (Nat.mod_lt n (by omega)).trans_le ((FactorBase.mem_primes_iff p).mp hmem).2.2

theorem isSmall_eq {a : Limbs w} (ha : a ≠ []) : isSmall a = .ok (Prime.isSmall a) := by
  rw [isSmall, Prime.isSmall]
  by_cases hwords : wordLen a ≤ 1
  · rw [if_pos hwords, wordAt_zero ha, Checked.ok_bind, decide_eq_true hwords, Bool.true_and]
    rfl
  · rw [if_neg hwords, decide_eq_false hwords, Bool.false_and]
    rfl

theorem testCandidate_agree (limits : Prime.WalkLimits) {out : Limbs w}
    (hbits : w.bits * out.length < sizeLimit) (tested : Nat) :
    ∃ events, Search.Agree (Prime.testCandidate limits out tested)
      (testCandidate limits out tested) (Prime.isPrimeDepth out.length) events
      (Prime.primeOutcome limits.fuel out) := by
  have htest := Search.agree_quietly (isPrime_agree hbits limits.fuel)
  rw [Prime.testCandidate, testCandidate]
  simp only [attempt_bind (bitLen_eq hbits)]
  cases hout : Prime.primeOutcome limits.fuel out with
  | error fault =>
      rw [hout] at htest
      exact ⟨_, htest.bind_error.after_emit _⟩
  | ok answer =>
      rw [hout] at htest
      cases answer with
      | true => exact ⟨_, (htest.bind ((Search.agree_pure true _).after_emit _)).after_emit _⟩
      | false =>
          refine ⟨[_], .after_emit _ (htest.bind_silent ?_)⟩
          exact Search.agree_pure false _

/-! ## The walk -/

/-- One step of the walk, with the carry as a plain condition. -/
theorem walk_eq (limits : Prime.WalkLimits) {out : Limbs w} {small : Bool}
    (hbits : w.bits * out.length < sizeLimit) (hsmall : isSmall out = .ok small)
    (residues : List Nat) (tested : Nat) :
    walk limits out residues tested =
      if limits.bits < Limbs.bitLen out then do
        Search.emit (.bitLimitReached tested limits.bits)
        return (false, out)
      else if (small || residues.all (· != 0)) && tested == limits.trials then do
        Search.emit (.candidatesExhausted tested)
        return (false, out)
      else do
        let tested ← if small || residues.all (· != 0) then attempt (checkedSize (tested + 1))
          else pure tested
        let found ← if small || residues.all (· != 0) then testCandidate limits out tested
          else pure false
        if found then return (true, out)
        else if (addWord out 2).2 = 0 then do
          let residues ← attempt (stepResidues w residues FactorBase.primes)
          walk limits (addWord out 2).1 residues tested
        else return (false, (addWord out 2).1) := by
  rw [walk, attempt_bind (bitLen_eq hbits), attempt_bind hsmall]
  rfl

/-- Both forms of a search for a number of `n` words end alike. -/
def EndAlike {α : Type} (n : Nat) (plain trapping : Search w α) : Prop :=
  ∃ events result, Search.Agree plain trapping (Prime.isPrimeDepth n) events result ∧
    OnlyFuel result

namespace EndAlike

variable {α β : Type} {n : Nat}

theorem result (a : α) : EndAlike (w := w) n (pure a) (pure a) :=
  ⟨_, _, Search.agree_pure a _, onlyFuel_ok _⟩

theorem after_emit {plain trapping : Search w α} (event : Event) (h : EndAlike n plain trapping) :
    EndAlike n (Search.emit event >>= fun _ => plain)
      (Search.emit event >>= fun _ => trapping) := by
  obtain ⟨events, result, hagree, hfuel⟩ := h
  exact ⟨_, result, hagree.after_emit event, hfuel⟩

/-- Two forms of a first part, and what comes after each of its results. -/
theorem bind {plain trapping : Search w α} {next next' : α → Search w β} {events : List Event}
    {out : Checked α} (h : Search.Agree plain trapping (Prime.isPrimeDepth n) events out)
    (hfuel : OnlyFuel out) (hnext : ∀ a, out = .ok a → EndAlike n (next a) (next' a)) :
    EndAlike n (plain >>= next) (trapping >>= next') := by
  cases out with
  | error fault =>
      obtain rfl := hfuel fault rfl
      exact ⟨_, _, h.bind_error, onlyFuel_error⟩
  | ok a =>
      obtain ⟨events', result, hagree, hfuel'⟩ := hnext a rfl
      exact ⟨_, result, h.bind hagree, hfuel'⟩

end EndAlike

/-- One candidate, if the walks go on alike behind it. -/
theorem walk_step_agree (limits : Prime.WalkLimits) (htrials : limits.trials < sizeLimit)
    {out : Limbs w} (hne : out ≠ []) (hbits : w.bits * out.length < sizeLimit) (residues : List Nat)
    {tested : Nat} (htested : tested ≤ limits.trials)
    (hnext : ∀ tested' ≤ limits.trials, EndAlike out.length
      (if (addWord out 2).2 = 0 then
        Prime.walk limits (addWord out 2).1 (Prime.stepResidues residues) tested'
      else return (false, (addWord out 2).1))
      (if (addWord out 2).2 = 0 then do
        let residues ← attempt (stepResidues w residues FactorBase.primes)
        walk limits (addWord out 2).1 residues tested'
      else return (false, (addWord out 2).1))) :
    EndAlike out.length (Prime.walk limits out residues tested)
      (walk limits out residues tested) := by
  rw [Prime.walk_eq, walk_eq limits hbits (isSmall_eq hne)]
  by_cases hlong : limits.bits < Limbs.bitLen out
  · rw [if_pos hlong, if_pos hlong]
    exact (EndAlike.result _).after_emit _
  rw [if_neg hlong, if_neg hlong]
  cases hsurvives : Prime.isSmall out || residues.all (· != 0) with
  | false =>
      simp only [Bool.false_and, Bool.false_eq_true, if_false, pure_bind]
      exact hnext tested htested
  | true =>
      rw [Bool.true_and]
      by_cases hdone : tested = limits.trials
      · rw [beq_iff_eq.mpr hdone]
        exact (EndAlike.result _).after_emit _
      obtain ⟨tests, htest⟩ := testCandidate_agree limits hbits (tested + 1)
      rw [beq_eq_false_iff_ne.mpr hdone]
      simp only [if_true, attempt_bind (checkedSize_eq (by omega : tested + 1 < sizeLimit))]
      refine EndAlike.bind htest (onlyFuel_primeOutcome _ _) fun found _ => ?_
      cases found with
      | true => exact EndAlike.result _
      | false => exact hnext (tested + 1) (by omega)

/-- The residues of a candidate are below their primes, whatever the step.  The
induction is on the room left above the candidate. -/
theorem walk_agree (limits : Prime.WalkLimits) (htrials : limits.trials < sizeLimit) (k : Nat)
    {out : Limbs w} (hne : out ≠ []) (hbits : w.bits * out.length < sizeLimit) {tested : Nat}
    (htested : tested ≤ limits.trials) :
    EndAlike out.length (Prime.walk limits out (FactorBase.residueTable k (val out)) tested)
      (walk limits out (FactorBase.residueTable k (val out)) tested) := by
  induction hroom : 2 ^ (w.bits * out.length) - val out using Nat.strongRecOn
    generalizing out tested with
  | ind room ih =>
      apply walk_step_agree limits htrials hne hbits _ htested
      intro tested' htested'
      have hlength := length_addWord out 2
      by_cases hcarry : (addWord out 2).2 = 0
      · have hstep := stepResidues_eq (w := w)
          (fun r hr => residueTable_lt (k := k) (n := val out) hr) FactorBase.primes
        have hsum := val_addWord out 2
        rw [hcarry, Word.toNat_zero, Nat.mul_zero, Nat.add_zero, Word.toNat_two] at hsum
        have hroom' := @Prime.room_addWord_lt w out _ _ rfl hcarry
        rw [if_pos hcarry, if_pos hcarry, attempt_bind hstep]
        change EndAlike _ (Prime.walk limits (addWord out 2).1
          (Prime.stepResidues (FactorBase.residueTable k (val out))) tested')
          (walk limits (addWord out 2).1
            (Prime.stepResidues (FactorBase.residueTable k (val out))) tested')
        rw [Prime.stepResidues_residueTable, ← hsum, ← hlength]
        exact ih _ (hroom ▸ hroom') (by rwa [ne_eq, ← List.length_eq_zero_iff, hlength,
          List.length_eq_zero_iff]) (by rwa [hlength]) htested' rfl
      · rw [if_neg hcarry, if_neg hcarry]
        exact EndAlike.result _

/-! ## The whole search -/

theorem nextPrime_agree {k trials : Nat} {out : Limbs w} (start : Limbs w) (fuel bitLimit : Nat)
    (hk : k ≤ FactorBase.size) (hbits : w.bits * out.length < sizeLimit)
    (htrials : trials < sizeLimit) :
    ∃ events result, Search.Agree (Prime.nextPrime fuel out start trials k bitLimit)
      (nextPrime fuel out start trials k bitLimit) (Prime.nextPrimeDepth out.length k) events
      result ∧ OnlyFuel result := by
  rw [Prime.nextPrime, nextPrime, Search.ensure_bind hk, Search.ensure_bind hk]
  by_cases hargs : out.length = 0 ∨ out.length < wordLen start
  · rw [if_pos hargs, if_pos hargs]
    exact ⟨_, _, Search.agree_pure _ _, onlyFuel_ok _⟩
  have hroom : wordLen start ≤ out.length := by omega
  have hn : out.length ≠ 0 := by omega
  have hlength := (Prime.firstCandidate_spec hn hroom).1
  rw [if_neg hargs, if_neg hargs, attempt_bind (checkedSize_eq (by rwa [Nat.mul_comm])),
    attempt_bind (firstCandidate_eq hn hroom)]
  generalize Prime.firstCandidate out.length start = first at *
  have hne : first ≠ [] := by
    rw [ne_eq, ← List.length_eq_zero_iff, hlength]
    exact hn
  have hresidues := FactorBase.residues_eq hk first
  obtain ⟨events, result, hwalk, hfuel⟩ := walk_agree
    ⟨trials, min bitLimit (out.length * w.bits), fuel⟩ htrials k hne (by rwa [hlength])
    (Nat.zero_le _)
  rw [hlength, ← hresidues] at hwalk
  refine ⟨events, result, .withBuffer fun _ _ =>
    ⟨(FactorBase.residues k first).map Word.ofNat, ?_⟩, hfuel⟩
  rw [attempt_bind (residues_eq hk first).1]
  exact hwalk.then_pure _

end CryptoPrimes.Trapping
