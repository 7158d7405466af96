import CryptoPrimes.InPlace.Search
import CryptoPrimes.Proofs.InPlace.Prime
import CryptoPrimes.Proofs.Trapping.Next

/-!
# The upward search in place follows its form on values

The table of residues is cleared before the first word of the candidate is taken
in, and from there on its words are the residues of the candidate (`words`).  A
residue is below its prime and so far from the top of a word that two can be
added to it.

The candidate itself lies in the words of the result, which are cleared before
the start value is copied there.
-/

namespace CryptoPrimes.InPlace

open Limbs CryptoPrimes.Modular Trapping

variable {w : Width}

/-! ## The table of residues -/

/-- Residues, each in a word. -/
def words (w : Width) (rs : List Nat) : Limbs w := rs.map Word.ofNat

theorem words_cons (r : Nat) (rs : List Nat) : words w (r :: rs) = Word.ofNat r :: words w rs :=
  rfl

theorem residueRow_eq (x : Word w) {rs ps : List Nat} (hlength : rs.length ≤ ps.length)
    (hrs : ∀ r ∈ rs, r < 2 ^ w.bits) (hps : ∀ p ∈ ps, p ∈ FactorBase.primes) :
    residueRow x (words w rs) ps =
      .ok (words w (List.zipWith (fun r p => (r * 2 ^ w.bits + x.toNat) % p) rs ps)) := by
  induction rs generalizing ps with
  | nil => cases ps <;> rfl
  | cons r rs ih =>
      cases ps with
      | nil => exact absurd hlength (Nat.not_succ_le_zero _)
      | cons p ps =>
          rw [List.forall_mem_cons] at hrs hps
          have hpos := FactorBase.pos_of_mem hps.1
          rw [words_cons, residueRow, Word.toNat_ofNat_of_lt hrs.1,
            doubleWord_eq (double_lt hrs.1 x.toNat_lt), Checked.ok_bind,
            remainder_eq _ (by omega), Checked.ok_bind,
            ih (Nat.le_of_succ_le_succ hlength) hrs.2 hps.2]
          rfl

theorem length_residueTable (k n : Nat) :
    (FactorBase.residueTable k n).length ≤ FactorBase.primes.length := by
  rw [FactorBase.residueTable, List.length_map, List.length_take]
  exact Nat.min_le_right _ _

/-- Whatever the table held, it ends with the residues of the number. -/
theorem residues_eq {k : Nat} (hk : k ≤ FactorBase.size) {table : Limbs w}
    (htable : table.length = k) (a : Limbs w) :
    residues table a = .ok (words w (FactorBase.residueTable k (val a))) := by
  rw [← FactorBase.residues_eq hk]
  induction a with
  | nil =>
      rw [residues, htable, Checked.require_of hk, cleared_eq_zeros, htable]
      show _ = Except.ok (words w (List.replicate k 0))
      rw [words, List.map_replicate]
      rfl
  | cons x xs ih =>
      have hlength := length_residueTable k (val xs)
      rw [← FactorBase.residues_eq hk] at hlength
      rw [residues, ih, Checked.ok_bind,
        residueRow_eq x hlength (Trapping.residues_eq hk xs).2 fun _ hp => hp]
      rfl

theorem ofNat_add_two {r : Nat} (h : r + 2 < 2 ^ w.bits) :
    (Word.ofNat r + 2 : Word w) = Word.ofNat (r + 2) := by
  rw [← Word.toNat_inj, Word.toNat_add, Word.toNat_two, Word.toNat_ofNat_of_lt (by omega),
    Word.toNat_ofNat_of_lt h, Nat.mod_eq_of_lt h]

theorem ofNat_sub {m n : Nat} (h : n ≤ m) (hm : m < 2 ^ w.bits) :
    (Word.ofNat m - Word.ofNat n : Word w) = Word.ofNat (m - n) := by
  rw [← Word.toNat_inj, Word.toNat_sub, Word.toNat_ofNat_of_lt (by omega),
    Word.toNat_ofNat_of_lt hm, Word.toNat_ofNat_of_lt (by omega)]
  have hsum : 2 ^ w.bits - n + m = m - n + 2 ^ w.bits := by omega
  rw [hsum, Nat.add_mod_right, Nat.mod_eq_of_lt (by omega)]

theorem stepResidues_eq {rs ps : List Nat} (hlength : rs.length ≤ ps.length)
    (hrs : ∀ r ∈ rs, r < FactorBase.largest) (hps : ∀ p ∈ ps, p ∈ FactorBase.primes) :
    stepResidues (words w rs) ps =
      .ok (words w (List.zipWith (fun r p => if p ≤ r + 2 then r + 2 - p else r + 2) rs ps)) := by
  induction rs generalizing ps with
  | nil => cases ps <;> rfl
  | cons r rs ih =>
      cases ps with
      | nil => exact absurd hlength (Nat.not_succ_le_zero _)
      | cons p ps =>
          rw [List.forall_mem_cons] at hrs hps
          have hp : p < 2 ^ w.bits := lt_radix w hps.1
          have hfits : r + 2 < 2 ^ w.bits := by
            have hlarge : FactorBase.largest + 2 < 2 ^ w.bits := by cases w <;> decide
            omega
          have hsum : wordSum (Word.ofNat r : Word w) 2 = .ok (Word.ofNat (r + 2)) := by
            rw [wordSum_eq, ofNat_add_two hfits]
            rwa [Word.toNat_ofNat_of_lt (by omega), Word.toNat_two]
          have hless : (Word.ofNat (r + 2) : Word w) < Word.ofNat p ↔ r + 2 < p := by
            rw [Word.lt_iff_toNat_lt, Word.toNat_ofNat_of_lt hfits, Word.toNat_ofNat_of_lt hp]
          rw [words_cons, stepResidues, hsum, Checked.ok_bind,
            ih (Nat.le_of_succ_le_succ hlength) hrs.2 hps.2, List.zipWith_cons_cons]
          by_cases h : p ≤ r + 2
          · have hdifference : wordDifference (Word.ofNat (r + 2) : Word w) (Word.ofNat p) =
                .ok (Word.ofNat (r + 2 - p)) := by
              rw [wordDifference_eq, ofNat_sub h hfits]
              rwa [Word.toNat_ofNat_of_lt hp, Word.toNat_ofNat_of_lt hfits]
            rw [if_neg (by rw [hless]; omega), if_pos h, hdifference]
            rfl
          · rw [if_pos (by rw [hless]; omega), if_neg h]
            rfl

/-- The residues of a number become those of the number plus two. -/
theorem stepResidues_words (k n : Nat) :
    stepResidues (words w (FactorBase.residueTable k n)) FactorBase.primes =
      .ok (words w (FactorBase.residueTable k (n + 2))) := by
  rw [stepResidues_eq (length_residueTable k n) (fun _ hr => residueTable_lt hr) fun _ hp => hp,
    ← Prime.stepResidues_residueTable]
  rfl

/-- A residue that fits its word is zero where the word is. -/
theorem all_words {rs : List Nat} (hrs : ∀ r ∈ rs, r < 2 ^ w.bits) :
    (words w rs).all (· != 0) = rs.all (· != 0) := by
  induction rs with
  | nil => rfl
  | cons r rs ih =>
      rw [List.forall_mem_cons] at hrs
      have hzero : ((Word.ofNat r : Word w) != 0) = (r != 0) := by
        rw [bne, bne, Bool.not_inj_iff, Bool.eq_iff_iff, beq_iff_eq, beq_iff_eq, ← Word.toNat_inj,
          Word.toNat_ofNat_of_lt hrs.1, Word.toNat_zero]
      rw [words_cons, List.all_cons, List.all_cons, hzero, ih hrs.2]

/-! ## One candidate -/

/-- An odd word has its lowest bit set already. -/
theorem or_one_of_isOdd {x : Word w} (h : x.isOdd = true) : x ||| 1 = x := by
  have hodd := (Word.isOdd_iff x).mp h
  rw [← Word.toNat_inj, Word.toNat_or_one]
  omega

theorem follows_firstCandidate (out start : Limbs w) :
    Checked.Follows (Same out.length) (firstCandidate out start)
      (Trapping.firstCandidate out.length start) := by
  unfold firstCandidate Trapping.firstCandidate
  rw [cleared_eq_zeros]
  refine .same_bind fun part => (follows_write _ _ _ (length_zeros _)).bind ?_
  rintro first _ ⟨rfl, hfirst⟩
  cases first with
  | nil => exact .fault _ _
  | cons x xs =>
      have hset (y : Word w) : setWord (x :: xs) 0 y = .ok (y :: xs) :=
        setWord_append (a := []) rfl y
      rw [wordAt_zero (List.cons_ne_nil x xs), Checked.ok_bind, Checked.ok_bind, List.headD_cons]
      split
      · exact follows_setWord _ _ hfirst
      split
      · rw [or_one_of_isOdd ‹_›, hset]
        exact .result ⟨rfl, hfirst⟩
      · exact follows_setWord _ _ hfirst

theorem firstCandidate_eq {out start : Limbs w} (hn : out.length ≠ 0)
    (hroom : wordLen start ≤ out.length) :
    firstCandidate out start = .ok (Prime.firstCandidate out.length start) := by
  have hfollows := follows_firstCandidate out start
  rw [Trapping.firstCandidate_eq hn hroom] at hfollows
  obtain ⟨first, hrun, rfl, -⟩ := hfollows
  exact hrun

theorem follows_testCandidate (limits : Prime.WalkLimits) (out : Limbs w) (tested : Nat) :
    Search.Follows (Prime.isPrimeDepth out.length) Eq (testCandidate limits out tested)
      (Trapping.testCandidate limits out tested) := by
  unfold testCandidate testCandidateWith askPrime Trapping.testCandidate
  refine .same_bind fun bits => .after_emit _ ?_
  refine (Search.follows_quietly (follows_isPrime limits.fuel out)).bind ?_
  rintro found _ rfl
  cases found with
  | true =>
      refine .same_bind fun bits => .after_emit _ ?_
      exact Search.follows_pure rfl
  | false => exact Search.follows_pure rfl

/-! ## The walk -/

/-- One step of the walk, with the carry as a plain condition. -/
theorem walkWith_eq (look : Limbs w → Limbs w → Search w Unit) (test : Limbs w → Search w Bool)
    (limits : Prime.WalkLimits) {out : Limbs w} (hne : out ≠ [])
    (hbits : w.bits * out.length < sizeLimit) (table : Limbs w) (tested : Nat) :
    walkWith look test limits out table tested = (do
      look out table
      if limits.bits < Limbs.bitLen out then do
        Search.emit (.bitLimitReached tested limits.bits)
        return ((false, out), table)
      else if (Prime.isSmall out || table.all (· != 0)) && tested == limits.trials then do
        Search.emit (.candidatesExhausted tested)
        return ((false, out), table)
      else do
        let tested ← if Prime.isSmall out || table.all (· != 0) then
          attempt (checkedSize (tested + 1)) else pure tested
        let found ← if Prime.isSmall out || table.all (· != 0) then
          testCandidateWith test out tested else pure false
        if found then return ((true, out), table)
        else if (addWord out 2).2 = 0 then do
          let table ← attempt (stepResidues table FactorBase.primes)
          walkWith look test limits (addWord out 2).1 table tested
        else return ((false, (addWord out 2).1), table)) := by
  rw [walkWith]
  simp only [attempt_bind (bitLen_eq hbits), attempt_bind (isSmall_eq hne)]
  rfl

/-- One candidate, if the walks go on alike behind it. -/
theorem follows_walk_step (limits : Prime.WalkLimits) {out : Limbs w} (hne : out ≠ [])
    (hbits : w.bits * out.length < sizeLimit) {rs : List Nat} (hrs : ∀ r ∈ rs, r < 2 ^ w.bits)
    (tested : Nat)
    (hnext : ∀ tested', Search.Follows (Prime.isPrimeDepth out.length) (fun p p' => p.1 = p')
      (if (addWord out 2).2 = 0 then do
        let table ← attempt (stepResidues (words w rs) FactorBase.primes)
        walk limits (addWord out 2).1 table tested'
      else return ((false, (addWord out 2).1), words w rs))
      (if (addWord out 2).2 = 0 then do
        let residues ← attempt (Trapping.stepResidues w rs FactorBase.primes)
        Trapping.walk limits (addWord out 2).1 residues tested'
      else return (false, (addWord out 2).1))) :
    Search.Follows (Prime.isPrimeDepth out.length) (fun p p' => p.1 = p')
      (walk limits out (words w rs) tested) (Trapping.walk limits out rs tested) := by
  have hsmall := isSmall_eq hne
  rw [walk, walkWith_eq passBy _ limits hne hbits, passBy, pure_bind,
    Trapping.walk_eq limits hbits hsmall, all_words hrs]
  split
  · exact .after_emit _ (Search.follows_pure rfl)
  cases Prime.isSmall out || rs.all (· != 0) with
  | false =>
      simp only [Bool.false_and, Bool.false_eq_true, if_false, pure_bind]
      exact hnext tested
  | true =>
      rw [Bool.true_and]
      split
      · exact .after_emit _ (Search.follows_pure rfl)
      simp only [if_true]
      refine .same_bind fun tested => (follows_testCandidate limits out tested).bind ?_
      rintro found _ rfl
      cases found with
      | true => exact Search.follows_pure rfl
      | false => exact hnext tested

/-- The table holds the residues of the candidate at every step.  The induction is
on the room left above the candidate. -/
theorem follows_walk (limits : Prime.WalkLimits) (k : Nat) {out : Limbs w} (hne : out ≠ [])
    (hbits : w.bits * out.length < sizeLimit) (tested : Nat) :
    Search.Follows (Prime.isPrimeDepth out.length) (fun p p' => p.1 = p')
      (walk limits out (words w (FactorBase.residueTable k (val out))) tested)
      (Trapping.walk limits out (FactorBase.residueTable k (val out)) tested) := by
  induction hroom : 2 ^ (w.bits * out.length) - val out using Nat.strongRecOn
    generalizing out tested with
  | ind room ih =>
      have hlarge : FactorBase.largest < 2 ^ w.bits := by cases w <;> decide
      have hrs : ∀ r ∈ FactorBase.residueTable k (val out), r < FactorBase.largest :=
        fun r hr => residueTable_lt hr
      refine follows_walk_step limits hne hbits (fun r hr => (hrs r hr).trans hlarge) tested
        fun tested' => ?_
      have hlength := length_addWord out 2
      by_cases hcarry : (addWord out 2).2 = 0
      · have hsum := val_addWord out 2
        rw [hcarry, Word.toNat_zero, Nat.mul_zero, Nat.add_zero, Word.toNat_two] at hsum
        have hroom' := @Prime.room_addWord_lt w out _ _ rfl hcarry
        have hvalues : Trapping.stepResidues w (FactorBase.residueTable k (val out))
            FactorBase.primes = .ok (FactorBase.residueTable k (val out + 2)) := by
          rw [Trapping.stepResidues_eq hrs, ← Prime.stepResidues_residueTable]
          rfl
        rw [if_pos hcarry, if_pos hcarry, attempt_bind (stepResidues_words k (val out)),
          attempt_bind hvalues, ← hsum, ← hlength]
        exact ih _ (hroom ▸ hroom') (by rwa [ne_eq, ← List.length_eq_zero_iff, hlength,
          List.length_eq_zero_iff]) (by rwa [hlength]) tested' rfl
      · rw [if_neg hcarry, if_neg hcarry]
        exact Search.follows_pure rfl

/-! ## The table beside the candidate -/

/-- A look that passes by a candidate with the right table beside it. -/
def Passes (k : Nat) (look : Limbs w → Limbs w → Search w Unit) : Prop :=
  ∀ out : Limbs w, look out (words w (FactorBase.residueTable k (val out))) = pure ()

/-- The assertion about a table passes by where it holds. -/
theorem passes_assertResidues {k : Nat} (hk : k ≤ FactorBase.size) :
    Passes (w := w) k assertResidues := by
  intro out
  have htable : (words w (FactorBase.residueTable k (val out))).length = k := by
    rw [words, List.length_map, FactorBase.residueTable, List.length_map,
      FactorBase.length_take_primes hk]
  rw [assertResidues, attempt_bind (residues_eq hk htable out)]
  funext s
  exact if_pos rfl

/-- A look that passes by the right tables makes no difference, since the walk shows it
no other.  The induction is on the room left above the candidate. -/
theorem walkWith_look {k : Nat} {look : Limbs w → Limbs w → Search w Unit} (hlook : Passes k look)
    (test : Limbs w → Search w Bool) (limits : Prime.WalkLimits) {out : Limbs w} (hne : out ≠ [])
    (hbits : w.bits * out.length < sizeLimit) (tested : Nat) :
    walkWith look test limits out (words w (FactorBase.residueTable k (val out))) tested =
      walkWith passBy test limits out (words w (FactorBase.residueTable k (val out))) tested := by
  induction hroom : 2 ^ (w.bits * out.length) - val out using Nat.strongRecOn
    generalizing out tested with
  | ind room ih =>
      rw [walkWith_eq look test limits hne hbits, walkWith_eq passBy test limits hne hbits, hlook,
        passBy, pure_bind, pure_bind]
      simp only [attempt_bind (stepResidues_words k (val out))]
      by_cases hcarry : (addWord out 2).2 = 0
      · have hlength := length_addWord out 2
        have hsum := val_addWord out 2
        rw [hcarry, Word.toNat_zero, Nat.mul_zero, Nat.add_zero, Word.toNat_two] at hsum
        have hnext : (addWord out 2).1 ≠ [] := by
          rwa [ne_eq, ← List.length_eq_zero_iff, hlength, List.length_eq_zero_iff]
        have hroom' := @Prime.room_addWord_lt w out _ _ rfl hcarry
        have hrest := fun tested' =>
          ih _ (hroom ▸ hroom') hnext (by rwa [hlength]) tested' rfl
        simp only [hcarry, ← hsum, hrest]
      · simp only [hcarry, if_false]

/-! ## The whole search -/

theorem nextPrimeWith_look {k : Nat} {look : Limbs w → Limbs w → Search w Unit}
    (hlook : Passes k look) (test : Limbs w → Search w Bool) (fuel : Nat) {out : Limbs w}
    (start : Limbs w) (trials bitLimit : Nat) (hk : k ≤ FactorBase.size)
    (hbits : w.bits * out.length < sizeLimit) :
    nextPrimeWith look test fuel out start trials k bitLimit =
      nextPrimeWith passBy test fuel out start trials k bitLimit := by
  rw [nextPrimeWith, nextPrimeWith, Search.ensure_bind hk, Search.ensure_bind hk]
  by_cases hargs : out.length = 0 ∨ out.length < wordLen start
  · rw [if_pos hargs, if_pos hargs]
  obtain ⟨hn, hroom⟩ := not_or.mp hargs
  obtain ⟨hlength, -⟩ := Prime.firstCandidate_spec hn (not_lt.mp hroom)
  have hne : Prime.firstCandidate out.length start ≠ [] := by
    rwa [ne_eq, ← List.length_eq_zero_iff, hlength]
  rw [if_neg hargs, if_neg hargs, attempt_bind (checkedSize_eq (by rwa [Nat.mul_comm])),
    attempt_bind (checkedSize_eq (by rwa [Nat.mul_comm])),
    attempt_bind (firstCandidate_eq hn (not_lt.mp hroom)),
    attempt_bind (firstCandidate_eq hn (not_lt.mp hroom))]
  refine Search.withBuffer_congr fun table htable => ?_
  rw [attempt_bind (residues_eq hk htable _), attempt_bind (residues_eq hk htable _)]
  exact walkWith_look hlook test _ hne (by rwa [hlength]) 0

theorem follows_nextPrime {out : Limbs w} (fuel : Nat) (start : Limbs w) (trials k bitLimit : Nat)
    (hbits : w.bits * out.length < sizeLimit) :
    Search.Follows (Prime.nextPrimeDepth out.length k) Eq
      (nextPrime fuel out start trials k bitLimit)
      (Trapping.nextPrime fuel out start trials k bitLimit) := by
  unfold nextPrime nextPrimeWith Trapping.nextPrime
  refine .ensure_bind _ fun hk => ?_
  split
  · exact Search.follows_pure rfl
  refine .same_bind fun width => .attempt_bind (follows_firstCandidate out start) ?_
  rintro first _ ⟨rfl, hfirst⟩
  have hne : first ≠ [] := by
    rw [ne_eq, ← List.length_eq_zero_iff, hfirst]
    omega
  refine .withBuffer fun table _ htable _ => ?_
  have hvalues := (Trapping.residues_eq hk first).1
  rw [FactorBase.residues_eq hk] at hvalues
  rw [attempt_bind (residues_eq hk htable first), attempt_bind hvalues]
  have hwalk := follows_walk ⟨trials, min bitLimit width, fuel⟩ k hne (by rwa [hfirst]) 0
  rw [hfirst] at hwalk
  rw [← bind_pure (walkWith _ _ _ _ _ _)]
  exact hwalk.bind fun p p' h => Search.follows_pure h

end CryptoPrimes.InPlace
