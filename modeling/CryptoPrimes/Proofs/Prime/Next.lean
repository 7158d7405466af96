import CryptoPrimes.Prime.Next
import CryptoPrimes.Proofs.Prime.Search
import CryptoPrimes.Proofs.Prime.Test

/-!
# What the upward search finds

`survivors k lo limit` lists the odd numbers from `lo` on, of at most `limit`
bits, that the first `k` base primes leave over or that lie in the range of the
base.  The walk visits exactly these (`walk_computes`): its residues are those
of the candidate at every step, so a candidate is tested exactly if it is the
next survivor (`walk_step`), and the walk stops at the end of the list for each
of its reasons.

`FindsNext` is what the report of a search for the first accepted number says, and
`nextPrime_findsNext` that the upward search reports it: it looks at the first
survivors, as many as there are trials.
-/

namespace CryptoPrimes.Prime

open Limbs

variable {w : Width}

/-! ## The numbers to be tested -/

/-- Whether a number goes to the prime test. -/
def Survives (k x : Nat) : Prop :=
  x ≤ FactorBase.largest ∨ ∀ p ∈ FactorBase.primes.take k, ¬ p ∣ x

instance (k x : Nat) : Decidable (Survives k x) := inferInstanceAs (Decidable (_ ∨ _))

/-- The sieve drops no prime. -/
theorem survives_of_prime (k : Nat) {x : Nat} (hx : x.Prime) : Survives k x := by
  by_cases hsmall : x ≤ FactorBase.largest
  · exact .inl hsmall
  · right
    intro p hp
    exact FactorBase.not_dvd_of_prime hx (not_le.mp hsmall) (List.mem_of_mem_take hp)

/-- The numbers to be tested, ascending: odd, from `lo` and three on, of at most
`limit` bits. -/
def survivors (k lo limit : Nat) : List Nat :=
  (List.range' lo (2 ^ limit - lo)).filter fun x => 3 ≤ x ∧ x % 2 = 1 ∧ Survives k x

theorem survivors_of_le {k lo limit : Nat} (h : 2 ^ limit ≤ lo) : survivors k lo limit = [] := by
  unfold survivors
  rw [Nat.sub_eq_zero_of_le h]
  rfl

/-- A number that is not to be tested can be left out at the front. -/
theorem survivors_succ {k limit : Nat} (lo : Nat) (h : ¬ (3 ≤ lo ∧ lo % 2 = 1 ∧ Survives k lo)) :
    survivors k lo limit = survivors k (lo + 1) limit := by
  rcases Nat.lt_or_ge lo (2 ^ limit) with hlt | hge
  · have hlen : 2 ^ limit - lo = 2 ^ limit - (lo + 1) + 1 := by omega
    rw [survivors, hlen, List.range'_succ, List.filter_cons, if_neg (by simpa using h), survivors]
  · rw [survivors_of_le hge, survivors_of_le (by omega)]

theorem survivors_cons {k lo limit : Nat} (hlt : lo < 2 ^ limit) (hthree : 3 ≤ lo)
    (hodd : lo % 2 = 1) (h : Survives k lo) :
    survivors k lo limit = lo :: survivors k (lo + 2) limit := by
  have hlen : 2 ^ limit - lo = 2 ^ limit - (lo + 1) + 1 := by omega
  rw [survivors, hlen, List.range'_succ, List.filter_cons, if_pos (by simp [hthree, hodd, h]),
    ← survivors, survivors_succ (lo + 1) (by omega)]

theorem survivors_skip {k lo limit : Nat} (hodd : lo % 2 = 1) (h : ¬ Survives k lo) :
    survivors k lo limit = survivors k (lo + 2) limit := by
  rw [survivors_succ lo (fun hall => h hall.2.2), survivors_succ (lo + 1) (by omega)]

/-- The search may start at the least odd number from three on. -/
theorem survivors_first (k lo limit : Nat) :
    survivors k (max (2 * (lo / 2) + 1) 3) limit = survivors k lo limit := by
  -- every number passed over is below three or even
  have hpass : ∀ d lo', lo' + d = max (2 * (lo / 2) + 1) 3 → lo ≤ lo' →
      survivors k (lo' + d) limit = survivors k lo' limit := by
    intro d
    induction d with
    | zero => exact fun _ _ _ => rfl
    | succ d ih =>
        intro lo' hfirst hle
        rw [survivors_succ lo' (by omega), ← ih (lo' + 1) (by omega) (by omega)]
        congr 1
        omega
  have h := hpass (max (2 * (lo / 2) + 1) 3 - lo) lo (by omega) le_rfl
  rwa [show lo + (max (2 * (lo / 2) + 1) 3 - lo) = max (2 * (lo / 2) + 1) 3 by omega] at h

/-- Membership spelled out. -/
theorem mem_survivors_iff {k lo limit x : Nat} :
    x ∈ survivors k lo limit ↔
      max lo 3 ≤ x ∧ x % 2 = 1 ∧ Nat.size x ≤ limit ∧ Survives k x := by
  unfold survivors
  rw [List.mem_filter, List.mem_range'_1, Nat.size_le, decide_eq_true_iff]
  constructor
  · rintro ⟨⟨hlo, hhi⟩, hthree, hodd, h⟩
    exact ⟨by omega, hodd, by omega, h⟩
  · rintro ⟨hlo, hodd, hhi, h⟩
    exact ⟨⟨by omega, by omega⟩, by omega, hodd, h⟩

theorem survivors_sorted (k lo limit : Nat) : (survivors k lo limit).Pairwise (· < ·) :=
  List.Pairwise.filter _ List.pairwise_lt_range'

/-! ## Candidates and their residues -/

/-- The range of the factor base is decided by the number. -/
theorem isSmall_iff (a : Limbs w) : isSmall a = true ↔ val a ≤ FactorBase.largest := by
  unfold isSmall
  rw [Bool.and_eq_true, decide_eq_true_iff, decide_eq_true_iff]
  constructor
  · rintro ⟨hwords, hsmall⟩
    rwa [val_eq_headD hwords]
  · intro hsmall
    have hwords : wordLen a ≤ 1 := by
      rw [wordLen_le_iff, Nat.mul_one]
      exact FactorBase.lt_radix_of_le w hsmall
    rw [← val_eq_headD hwords]
    exact ⟨hwords, hsmall⟩

/-- The residues tell whether a candidate survives. -/
theorem survives_iff (k : Nat) (a : Limbs w) :
    (isSmall a || (FactorBase.residueTable k (val a)).all (· != 0)) = true ↔
      Survives k (val a) := by
  rw [Bool.or_eq_true, isSmall_iff, FactorBase.residueTable, List.all_map, List.all_eq_true,
    Survives]
  apply or_congr_right
  apply forall₂_congr
  intro p _
  rw [Function.comp_apply, bne_iff_ne, Nat.dvd_iff_mod_eq_zero]

/-- A step keeps the residues those of the number. -/
theorem stepResidues_residueTable (k n : Nat) :
    stepResidues (FactorBase.residueTable k n) = FactorBase.residueTable k (n + 2) := by
  unfold stepResidues
  rw [FactorBase.residueTable, FactorBase.zipWith_map_take,
    FactorBase.residueTable]
  apply List.map_congr_left
  intro p hp
  have hthree := FactorBase.pos_of_mem (List.mem_of_mem_take hp)
  have hlt := Nat.mod_lt n (by omega : 0 < p)
  rw [← Nat.mod_add_mod n p 2]
  split
  · next hle =>
      rw [Nat.mod_eq_sub_mod hle, Nat.mod_eq_of_lt (by omega : n % p + 2 - p < p)]
  · next hgt => rw [Nat.mod_eq_of_lt (by omega : n % p + 2 < p)]

/-- The candidate after so many steps. -/
def candidate (first : Limbs w) (steps : Nat) : Limbs w :=
  Nat.repeat (fun a => (addWord a 2).1) steps first

theorem candidate_spec {first : Limbs w} {steps : Nat}
    (h : val first + 2 * steps < 2 ^ (w.bits * first.length)) :
    (candidate first steps).length = first.length ∧
      val (candidate first steps) = val first + 2 * steps := by
  induction steps with
  | zero => exact ⟨rfl, rfl⟩
  | succ steps ih =>
      obtain ⟨hlen, hval⟩ := ih (by omega)
      obtain ⟨hnext, -⟩ := val_addWord_of_lt (a := candidate first steps) (x := 2)
        (by rw [Word.toNat_two, hlen, hval]; omega)
      refine ⟨(length_addWord _ _).trans hlen, ?_⟩
      show val (addWord (candidate first steps) 2).1 = _
      rw [hnext, Word.toNat_two, hval]
      omega

/-- The stepped residues are those of every candidate that fits its words. -/
theorem repeat_stepResidues {k : Nat} (hk : k ≤ FactorBase.size) {first : Limbs w} {steps : Nat}
    (h : val first + 2 * steps < 2 ^ (w.bits * first.length)) :
    Nat.repeat stepResidues steps (FactorBase.residues k first) =
      FactorBase.residues k (candidate first steps) := by
  rw [FactorBase.residues_eq hk, FactorBase.residues_eq hk, (candidate_spec h).2]
  induction steps with
  | zero => rfl
  | succ steps ih =>
      show stepResidues (Nat.repeat stepResidues steps _) = _
      rw [ih (by omega), stepResidues_residueTable]
      rfl

/-- The first candidate is the least odd number from `start` and three on. -/
theorem firstCandidate_spec {n : Nat} (hn : n ≠ 0) {start : Limbs w} (hroom : wordLen start ≤ n) :
    (firstCandidate n start).length = n ∧
      val (firstCandidate n start) = max (2 * (val start / 2) + 1) 3 := by
  have hlen : (extend (trim start) n).length = n := length_extend (by rw [length_trim]; exact hroom)
  have hval : val (extend (trim start) n) = val start := by rw [val_extend, val_trim]
  unfold firstCandidate
  cases hstart : extend (trim start) n with
  | nil =>
      rw [hstart] at hlen
      exact absurd hlen.symm hn
  | cons x xs =>
      rw [hstart, val_cons] at hval
      rw [hstart] at hlen
      dsimp only
      split
      · next hsmall =>
          rw [Bool.and_eq_true, isZero_iff, decide_eq_true_iff, Word.lt_iff_toNat_lt,
            Word.toNat_three] at hsmall
          refine ⟨hlen, ?_⟩
          rw [val_cons, hsmall.1, Word.toNat_three]
          rw [hsmall.1] at hval
          omega
      · next hlarge =>
          rw [Bool.and_eq_true, isZero_iff, decide_eq_true_iff, Word.lt_iff_toNat_lt,
            Word.toNat_three, not_and] at hlarge
          -- a start from three on: the next odd number from there
          have hor := Word.toNat_or_one x
          have heven : 2 ^ w.bits % 2 = 0 := by cases w <;> rfl
          have htop : 2 ^ w.bits * val xs % 2 = 0 := by
            rw [Nat.mul_mod, heven, Nat.zero_mul, Nat.zero_mod]
          have hthree : 3 ≤ val start := by
            by_cases hzero : val xs = 0
            · have := hlarge hzero
              omega
            · have hradix : 3 < 2 ^ w.bits := by cases w <;> decide
              have := Nat.le_mul_of_pos_right (2 ^ w.bits) (Nat.pos_of_ne_zero hzero)
              omega
          refine ⟨hlen, ?_⟩
          rw [val_cons, hor]
          omega

/-! ## The walk -/

/-- How a search through the numbers `xs` ends: with the first one accepted in
`n` words, without one, or at a number whose test runs out of fuel. -/
def EndsAtFirst (fuel n : Nat) (xs : List Nat) : Checked (Bool × Limbs w) → Prop
  | .ok (true, out) => out.length = n ∧ ∃ before after, xs = before ++ val out :: after ∧
      (∀ x ∈ before, ¬ Accepted w x) ∧ Accepted w (val out)
  | .ok (false, out) => out.length = n ∧ ∀ x ∈ xs, ¬ Accepted w x
  | .error fault => fault = .outOfFuel ∧ ∃ before x after, xs = before ++ x :: after ∧
      (∀ y ∈ before, ¬ Accepted w y) ∧ Unanswered w fuel x

/-- A number that is not accepted may come first. -/
theorem EndsAtFirst.cons {fuel n x : Nat} {xs : List Nat} {result : Checked (Bool × Limbs w)}
    (hx : ¬ Accepted w x) (h : EndsAtFirst fuel n xs result) :
    EndsAtFirst fuel n (x :: xs) result := by
  match result, h with
  | .ok (true, out), ⟨hlen, before, after, hxs, hbefore, haccepted⟩ =>
      exact ⟨hlen, x :: before, after, by rw [hxs, List.cons_append],
        List.forall_mem_cons.mpr ⟨hx, hbefore⟩, haccepted⟩
  | .ok (false, out), ⟨hlen, hnone⟩ => exact ⟨hlen, List.forall_mem_cons.mpr ⟨hx, hnone⟩⟩
  | .error fault, ⟨hfault, before, y, after, hxs, hbefore, hy⟩ =>
      exact ⟨hfault, x :: before, y, after, by rw [hxs, List.cons_append],
        List.forall_mem_cons.mpr ⟨hx, hbefore⟩, hy⟩

/-- The first of the numbers `xs` that the prime test accepts in `n` words, tested one
after the other with the given fuel. -/
def firstAccepted (fuel n : Nat) : List Nat → Checked (Option (Limbs w))
  | [] => .ok none
  | x :: xs => do
    if ← primeOutcome fuel (ofNat n x : Limbs w) then return some (ofNat n x)
    else firstAccepted fuel n xs

theorem firstAccepted_cons (fuel : Nat) {n : Nat} {out : Limbs w} (hlen : out.length = n)
    (xs : List Nat) :
    firstAccepted fuel n (val out :: xs) = (do
      if ← primeOutcome fuel out then return some out else firstAccepted fuel n xs) := by
  rw [firstAccepted, ← eq_ofNat hlen rfl]

/-- What a search in `n` words returns for the first number accepted; without one
the words may hold anything. -/
def Returns (n : Nat) (result : Checked (Bool × Limbs w)) : Checked (Option (Limbs w)) → Prop
  | .ok (some out) => result = .ok (true, out)
  | .ok none => ∃ out, out.length = n ∧ result = .ok (false, out)
  | .error fault => result = .error fault

/-- Such a search ends at the first number accepted. -/
theorem Returns.endsAtFirst {fuel n : Nat} {xs : List Nat}
    (hfits : ∀ x ∈ xs, x < 2 ^ (w.bits * n)) {result : Checked (Bool × Limbs w)}
    (h : Returns n result (firstAccepted fuel n xs)) : EndsAtFirst fuel n xs result := by
  induction xs with
  | nil =>
      obtain ⟨out, hlen, rfl⟩ := h
      exact ⟨hlen, by simp⟩
  | cons x xs ih =>
      obtain ⟨hx, hrest⟩ := List.forall_mem_cons.mp hfits
      have hval : val (ofNat n x : Limbs w) = x := val_ofNat_of_lt hx
      rw [firstAccepted] at h
      cases hout : primeOutcome fuel (ofNat n x : Limbs w) with
      | error fault =>
          rw [hout] at h
          obtain rfl : result = .error fault := h
          exact ⟨primeOutcome_error hout, [], x, xs, rfl, by simp, hval ▸ unanswered_of_outcome hout⟩
      | ok answer =>
          rw [hout] at h
          cases answer with
          | true =>
              obtain rfl : result = .ok (true, ofNat n x) := h
              exact ⟨length_ofNat n x, [], xs, by rw [hval]; rfl, by simp, accepted_of_outcome hout⟩
          | false => exact (ih hrest h).cons (hval ▸ not_accepted_of_outcome hout)

/-- One step of the walk, with the carry as a plain condition. -/
theorem walk_eq (limits : WalkLimits) (out : Limbs w) (residues : List Nat) (tested : Nat) :
    walk limits out residues tested =
      if limits.bits < bitLen out then do
        Search.emit (.bitLimitReached tested limits.bits)
        return (false, out)
      else if (isSmall out || residues.all (· != 0)) && tested == limits.trials then do
        Search.emit (.candidatesExhausted tested)
        return (false, out)
      else do
        let tested := if isSmall out || residues.all (· != 0) then tested + 1 else tested
        let found ← if isSmall out || residues.all (· != 0) then testCandidate limits out tested
          else pure false
        if found then return (true, out)
        else if (addWord out 2).2 = 0 then
          walk limits (addWord out 2).1 (stepResidues residues) tested
        else return (false, (addWord out 2).1) := by
  rw [walk]
  rfl

/-- A test reports itself, and the number if it is accepted. -/
theorem testCandidate_computes (limits : WalkLimits) (out : Limbs w) (tested : Nat) :
    ∃ events, Search.Computes (testCandidate limits out tested) (isPrimeDepth out.length) events
      (primeOutcome limits.fuel out) := by
  have htest := Search.computes_quietly (isPrime_computes limits.fuel out)
  unfold testCandidate
  cases hout : primeOutcome limits.fuel out with
  | error fault =>
      rw [hout] at htest
      exact ⟨_, htest.bind_error.after_emit _⟩
  | ok answer =>
      rw [hout] at htest
      cases answer with
      | true => exact ⟨_, (htest.bind (Search.computes_report _ _ _)).after_emit _⟩
      | false =>
          refine ⟨[_], Search.Computes.after_emit _ (htest.bind_silent ?_)⟩
          exact (Search.computes_pure false).mono (Nat.zero_le _)

/-- A computation that is left with the numbers from `lo` on, after `tested`
trials, returns what a search through the remaining survivors does. -/
def Walks (limits : WalkLimits) (k n lo tested : Nat) (walk : Search w (Bool × Limbs w)) : Prop :=
  ∃ events result, Search.Computes walk (isPrimeDepth n) events result ∧
    Returns n result (firstAccepted limits.fuel n
      ((survivors k lo limits.bits).take (limits.trials - tested)))

/-- One candidate, if the walk goes on as it should behind it. -/
theorem walk_step (limits : WalkLimits) {k n : Nat} {out : Limbs w} (hlen : out.length = n)
    (hodd : val out % 2 = 1) (hthree : 3 ≤ val out) (tested : Nat)
    (htested : tested ≤ limits.trials)
    (hnext : ∀ tested' ≤ limits.trials, Walks limits k n (val out + 2) tested'
      (if (addWord out 2).2 = 0 then
        walk limits (addWord out 2).1 (stepResidues (FactorBase.residueTable k (val out))) tested'
      else return (false, (addWord out 2).1))) :
    Walks limits k n (val out) tested
      (walk limits out (FactorBase.residueTable k (val out)) tested) := by
  unfold Walks
  rw [walk_eq]
  by_cases hlong : limits.bits < bitLen out
  · rw [if_pos hlong, survivors_of_le (by rw [bitLen_eq_size, Nat.lt_size] at hlong; exact hlong),
      List.take_nil]
    exact ⟨_, .ok (false, out), Search.computes_report _ _ _, out, hlen, rfl⟩
  rw [if_neg hlong]
  have hfits : val out < 2 ^ limits.bits := by
    rw [bitLen_eq_size, not_lt, Nat.size_le] at hlong
    exact hlong
  by_cases hs : Survives k (val out)
  · rw [(survives_iff k out).mpr hs, Bool.true_and, if_pos rfl, if_pos rfl,
      survivors_cons hfits hthree hodd hs]
    by_cases hdone : tested = limits.trials
    · rw [if_pos (beq_iff_eq.mpr hdone), hdone, Nat.sub_self, List.take_zero]
      exact ⟨_, .ok (false, out), Search.computes_report _ _ _, out, hlen, rfl⟩
    have hbudget : limits.trials - tested = limits.trials - (tested + 1) + 1 := by omega
    rw [if_neg (by rw [beq_iff_eq]; exact hdone), hbudget, List.take_succ_cons,
      firstAccepted_cons _ hlen]
    obtain ⟨tests, htest⟩ := testCandidate_computes limits out (tested + 1)
    rw [hlen] at htest
    cases hout : primeOutcome limits.fuel out with
    | error fault =>
        rw [hout] at htest
        exact ⟨_, .error fault, htest.bind_error, rfl⟩
    | ok answer =>
        rw [hout] at htest
        cases answer with
        | true =>
            exact ⟨_, .ok (true, out),
              htest.bind ((Search.computes_pure (true, out)).mono (Nat.zero_le _)), rfl⟩
        | false =>
            obtain ⟨events, result, hrun, hreturns⟩ := hnext (tested + 1) (by omega)
            exact ⟨_, result, htest.bind hrun, hreturns⟩
  · -- sieved: the candidate is no survivor and costs no trial
    have hsieved : (isSmall out || (FactorBase.residueTable k (val out)).all (· != 0)) =
        false := by
      rw [← Bool.not_eq_true, survives_iff]
      exact hs
    rw [hsieved, Bool.false_and, survivors_skip hodd hs]
    obtain ⟨events, result, hrun, hreturns⟩ := hnext tested htested
    exact ⟨events, result, ((Search.computes_pure false).mono (Nat.zero_le _)).bind_silent hrun,
      hreturns⟩

/-- The walk ends at the first accepted survivor, or at the end of those it may
test.  The induction is on the room left above the candidate. -/
theorem walk_computes (limits : WalkLimits) {k n : Nat} (hbits : limits.bits ≤ n * w.bits)
    {out : Limbs w} (hlen : out.length = n) (hodd : val out % 2 = 1) (hthree : 3 ≤ val out)
    (tested : Nat) (htested : tested ≤ limits.trials) :
    Walks limits k n (val out) tested
      (walk limits out (FactorBase.residueTable k (val out)) tested) := by
  induction hroom : 2 ^ (w.bits * n) - val out using Nat.strongRecOn generalizing out tested with
  | ind room ih =>
      have hlt := val_lt out
      rw [hlen] at hlt
      have hlimit : 2 ^ limits.bits ≤ 2 ^ (w.bits * n) :=
        Nat.pow_le_pow_right (by decide) (by rw [Nat.mul_comm]; exact hbits)
      have hsum := val_addWord out 2
      rw [hlen, Word.toNat_two] at hsum
      apply walk_step limits hlen hodd hthree tested htested
      intro tested' htested'
      by_cases hcarry : (addWord out 2).2 = 0
      · rw [hcarry, Word.toNat_zero, Nat.mul_zero, Nat.add_zero] at hsum
        rw [if_pos hcarry, stepResidues_residueTable, ← hsum]
        exact ih _ (by omega) ((length_addWord out 2).trans hlen) (by omega) (by omega)
          tested' htested' rfl
      · -- past the top of the words there is no survivor either
        have hpos : (addWord out 2).2.toNat ≠ 0 :=
          fun h => hcarry (Word.ext (by rw [h, Word.toNat_zero]))
        have hwrap := Nat.le_mul_of_pos_right (2 ^ (w.bits * n)) (Nat.pos_of_ne_zero hpos)
        unfold Walks
        rw [if_neg hcarry, survivors_of_le (by omega), List.take_nil]
        exact ⟨_, _, (Search.computes_pure _).mono (Nat.zero_le _), (addWord out 2).1,
          (length_addWord out 2).trans hlen, rfl⟩

/-! ## The whole search -/

/-- The search returns the first number accepted among those to be tested. -/
theorem nextPrime_returns {k : Nat} {out start : Limbs w} (fuel trials bitLimit : Nat)
    (hk : k ≤ FactorBase.size) (hne : out.length ≠ 0) (hroom : wordLen start ≤ out.length) :
    ∃ events result, Search.Computes (nextPrime fuel out start trials k bitLimit)
      (nextPrimeDepth out.length k) events result ∧
      Returns out.length result (firstAccepted fuel out.length
        ((survivors k (val start) (min bitLimit (out.length * w.bits))).take trials)) := by
  obtain ⟨hlen, hval⟩ := firstCandidate_spec hne hroom
  obtain ⟨events, result, hrun, hreturns⟩ := walk_computes (k := k)
    ⟨trials, min bitLimit (out.length * w.bits), fuel⟩ (Nat.min_le_right _ _) hlen (by omega)
    (by omega) 0 (Nat.zero_le _)
  rw [hval, survivors_first] at hreturns
  refine ⟨events, result, ?_, hreturns⟩
  unfold nextPrime
  rw [Search.ensure_bind hk, if_neg (by omega), nextPrimeDepth]
  refine Search.Computes.withBuffer (fun buffer _ =>
    ⟨(FactorBase.residues k (firstCandidate out.length start)).map Word.ofNat, ?_⟩)
  rw [FactorBase.residues_eq hk]
  exact hrun.then_pure _

theorem nextPrime_computes {k : Nat} {out start : Limbs w} (fuel trials bitLimit : Nat)
    (hk : k ≤ FactorBase.size) (hne : out.length ≠ 0) (hroom : wordLen start ≤ out.length) :
    ∃ events result, Search.Computes (nextPrime fuel out start trials k bitLimit)
      (nextPrimeDepth out.length k) events result ∧
      EndsAtFirst fuel out.length
        ((survivors k (val start) (min bitLimit (out.length * w.bits))).take trials) result := by
  obtain ⟨events, result, hrun, hreturns⟩ :=
    nextPrime_returns fuel trials bitLimit hk hne hroom
  refine ⟨events, result, hrun, hreturns.endsAtFirst fun x hx => ?_⟩
  obtain ⟨-, -, hsize, -⟩ := mem_survivors_iff.mp (List.mem_of_mem_take hx)
  rw [← Nat.size_le, Nat.mul_comm]
  exact hsize.trans (Nat.min_le_right _ _)

/-- Without words, or with fewer than the start value needs, nothing is found. -/
theorem nextPrime_unsearchable {k : Nat} {out start : Limbs w} (fuel trials bitLimit : Nat)
    (hk : k ≤ FactorBase.size) (hargs : out.length = 0 ∨ out.length < wordLen start) :
    Search.Computes (nextPrime fuel out start trials k bitLimit) 0 [] (.ok (false, out)) := by
  unfold nextPrime
  rw [Search.ensure_bind hk, if_pos hargs]
  exact Search.computes_pure _

/-! ## Reports -/

/-- What a search reports that is to find the first of the numbers `tested` that is
accepted, from `start` on in the words of `out`. -/
structure FindsNext (fuel : Nat) (out start scratch : Limbs w) (tested : List Nat)
    (report : Report w (Bool × Limbs w)) : Prop where
  /-- Without words, or with fewer than the start value needs, it returns at once and
  leaves `out` alone. -/
  refused : out.length = 0 ∨ out.length < wordLen start →
    report = ⟨[], .ok ((false, out), scratch)⟩
  answered : out.length ≠ 0 → wordLen start ≤ out.length →
    ∀ found out' rest, report.outcome = .ok ((found, out'), rest) →
      out'.length = out.length ∧
      (found = true ↔ ∃ x ∈ tested, Accepted w x) ∧
      (found = true → ∃ before after, tested = before ++ val out' :: after ∧
        (∀ x ∈ before, ¬ Accepted w x) ∧ Accepted w (val out'))
  /-- It can only stop without an answer at a test that does. -/
  unanswered : out.length ≠ 0 → wordLen start ≤ out.length →
    ∀ fault, report.outcome = .error fault → fault = .outOfFuel ∧
      ∃ before x after, tested = before ++ x :: after ∧
        (∀ y ∈ before, ¬ Accepted w y) ∧ Unanswered w fuel x

section

variable {fuel : Nat} {out start scratch : Limbs w} {tested : List Nat}
  {search : Search w (Bool × Limbs w)}

theorem findsNext_of_refused (hargs : out.length = 0 ∨ out.length < wordLen start)
    (hrun : Search.Computes search 0 [] (.ok (false, out))) :
    FindsNext fuel out start scratch tested (search.run scratch) where
  refused _ := hrun.run_silent scratch
  answered hne hroom := by omega
  unanswered hne hroom := by omega

theorem findsNext_of_ends {depth : Nat} {events : List Event} {result : Checked (Bool × Limbs w)}
    (hne : out.length ≠ 0) (hroom : wordLen start ≤ out.length)
    (hrun : Search.Computes search depth events result) (hdepth : depth ≤ scratch.length)
    (hends : EndsAtFirst fuel out.length tested result) :
    FindsNext fuel out start scratch tested (search.run scratch) where
  refused hargs := by omega
  answered _ _ := by
    intro found out' rest hok
    have hresult := (hrun.run hdepth).2
    rw [hok] at hresult
    rw [← hresult] at hends
    cases found with
    | true =>
        obtain ⟨hlen, before, after, htested, hbefore, haccepted⟩ := hends
        have hmem : val out' ∈ tested := by
          rw [htested]
          exact List.mem_append_cons_self
        exact ⟨hlen, iff_of_true rfl ⟨val out', hmem, haccepted⟩,
          fun _ => ⟨before, after, htested, hbefore, haccepted⟩⟩
    | false =>
        obtain ⟨hlen, hnone⟩ := hends
        refine ⟨hlen, iff_of_false (by simp) ?_, fun h => absurd h (by simp)⟩
        rintro ⟨x, hx, haccepted⟩
        exact hnone x hx haccepted
  unanswered _ _ := by
    intro fault herror
    have hresult := (hrun.run hdepth).2
    rw [herror] at hresult
    rw [← hresult] at hends
    exact hends

/-- Only fuel can be missing. -/
theorem FindsNext.fault_eq {report : Report w (Bool × Limbs w)}
    (h : FindsNext fuel out start scratch tested report) (fault : Fault)
    (herror : report.outcome = .error fault) : fault = .outOfFuel := by
  by_cases hargs : out.length = 0 ∨ out.length < wordLen start
  · rw [h.refused hargs] at herror
    contradiction
  · obtain ⟨hne, hroom⟩ := not_or.mp hargs
    exact (h.unanswered hne (not_lt.mp hroom) fault herror).1

open Classical in
/-- If every test answers, the first number that is accepted is found. -/
theorem FindsNext.found {report : Report w (Bool × Limbs w)} {before after : List Nat} {x : Nat}
    (h : FindsNext fuel out start scratch tested report) (hne : out.length ≠ 0)
    (hroom : wordLen start ≤ out.length) (hanswers : ∀ y ∈ tested, ¬ Unanswered w fuel y)
    (htested : tested = before ++ x :: after) (hbefore : ∀ y ∈ before, ¬ Accepted w y)
    (hx : Accepted w x) :
    ∃ out' rest, report.outcome = .ok ((true, out'), rest) ∧ val out' = x := by
  have hfirst {y : Nat} (hy : Accepted w y) :
      (∃ before after, tested = before ++ y :: after ∧ ∀ z ∈ before, ¬ Accepted w z) ↔
        tested.find? (fun z => decide (Accepted w z)) = some y := by
    rw [List.find?_eq_some_iff_append]
    simp [hy]
  cases houtcome : report.outcome with
  | error fault =>
      obtain ⟨-, before', y, after', hlist, -, hy⟩ := h.unanswered hne hroom fault houtcome
      have hmem : y ∈ tested := by
        rw [hlist]
        exact List.mem_append_cons_self
      exact absurd hy (hanswers y hmem)
  | ok result =>
      obtain ⟨⟨found, out'⟩, rest⟩ := result
      obtain ⟨-, hiff, hfound⟩ := h.answered hne hroom found out' rest houtcome
      have hmem : x ∈ tested := by
        rw [htested]
        exact List.mem_append_cons_self
      have htrue : found = true := hiff.mpr ⟨x, hmem, hx⟩
      obtain ⟨before', after', hlist, hbefore', haccepted⟩ := hfound htrue
      have hfind := (hfirst hx).mp ⟨before, after, htested, hbefore⟩
      rw [(hfirst haccepted).mp ⟨before', after', hlist, hbefore'⟩] at hfind
      exact ⟨out', rest, by rw [htrue], Option.some.inj hfind⟩

end

/-- The meaning of the upward search: it finds the first number accepted among the first
`trials` survivors. -/
theorem nextPrime_findsNext {k : Nat} (fuel : Nat) (out start scratch : Limbs w)
    (trials bitLimit : Nat) (hk : k ≤ FactorBase.size)
    (hdepth : nextPrimeDepth out.length k ≤ scratch.length) :
    FindsNext fuel out start scratch
      ((survivors k (val start) (min bitLimit (out.length * w.bits))).take trials)
      ((nextPrime fuel out start trials k bitLimit).run scratch) := by
  by_cases hargs : out.length = 0 ∨ out.length < wordLen start
  · exact findsNext_of_refused hargs (nextPrime_unsearchable fuel trials bitLimit hk hargs)
  · obtain ⟨hne, hroom⟩ := not_or.mp hargs
    obtain ⟨events, result, hrun, hends⟩ :=
      nextPrime_computes fuel trials bitLimit hk hne (not_lt.mp hroom)
    exact findsNext_of_ends hne (not_lt.mp hroom) hrun hdepth hends

end CryptoPrimes.Prime
