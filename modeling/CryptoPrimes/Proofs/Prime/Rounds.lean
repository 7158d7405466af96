import CryptoPrimes.Prime.Rounds
import CryptoPrimes.Proofs.Limbs.Shift
import CryptoPrimes.Proofs.Modular.Power
import CryptoPrimes.Proofs.Prime.Strong
import CryptoPrimes.Proofs.Sample

/-!
# The rounds of the strong test

A round decides exactly whether the number under test is a strong probable prime
to its witness (`passes_computes`): comparing Montgomery forms is comparing
residues, and stopping at a square that is one loses nothing, as minus one
cannot follow.

`roundsOutcome` says what all rounds answer in terms of draws and residues
alone; `strongTest_computes` is the equation with the computation on scratch
words.  From it follow the facts that carry over to every caller: nothing but
fuel is ever missing, more fuel does not change an answer, and a number that is
strong to every witness passes (`roundsOutcome_ne_false`).
-/

namespace CryptoPrimes.Prime

open Limbs CryptoPrimes.Modular

variable {w : Width} {σ : Type} [ByteSource σ]

/-! ## Preparing a candidate -/

section Candidate

variable {a : Limbs w} (hodd : val a % 2 = 1) (hlarge : 2 < val a)

include hodd hlarge

/-- The number less one is split into a power of two and an odd part. -/
theorem ofOdd_split :
    2 ^ (Candidate.ofOdd a).twos * val (Candidate.ofOdd a).oddPart = val a - 1 ∧
      val (Candidate.ofOdd a).oddPart % 2 = 1 ∧ 0 < (Candidate.ofOdd a).twos := by
  have heven : val (subWord a 1).1 = val a - 1 := by
    rw [val_subWord_of_le (by rw [Word.toNat_one]; omega), Word.toNat_one]
  obtain ⟨hdvd, hrest⟩ := trailingZeros_spec (a := (subWord a 1).1) (by rw [heven]; omega)
  have hpart : val (Candidate.ofOdd a).oddPart =
      val (subWord a 1).1 / 2 ^ trailingZeros (subWord a 1).1 := val_shiftRight _ _
  refine ⟨?_, ?_, ?_⟩
  · rw [hpart, ← heven]
    exact Nat.mul_div_cancel' hdvd
  · rw [hpart]
    exact hrest
  · rw [Nat.pos_iff_ne_zero]
    intro hzero
    have hzero : trailingZeros (subWord a 1).1 = 0 := hzero
    rw [hzero, Nat.pow_zero, Nat.div_one, heven] at hrest
    omega

theorem ofOdd_bound :
    (Candidate.ofOdd a).bound.length = a.length ∧ val (Candidate.ofOdd a).bound = val a - 3 := by
  refine ⟨length_subWord a 3, ?_⟩
  show val (subWord a 3).1 = val a - 3
  rw [val_subWord_of_le (by rw [Word.toNat_three]; omega), Word.toNat_three]

/-! ## One round -/

/-- The squares are searched for minus one. -/
theorem reachesMinusOne_computes (count : Nat) {y : Limbs w} {x : Nat} (hy : IsForm a y x) :
    Work.Computes (reachesMinusOne (Candidate.ofOdd a) count y) (montMulDepth a.length)
      (.ok (decide (∃ j < count, x ^ 2 ^ (j + 1) ≡ val a - 1 [MOD val a]))) := by
  induction count generalizing y x with
  | zero =>
      have hnone : ¬ ∃ j < 0, x ^ 2 ^ (j + 1) ≡ val a - 1 [MOD val a] := by
        rintro ⟨j, hj, -⟩
        exact absurd hj (Nat.not_lt_zero j)
      rw [decide_eq_false hnone]
      exact (Work.computes_pure false).mono (Nat.zero_le _)
  | succ count ih =>
      obtain ⟨square, hrun, hsquare⟩ := hy.mul hodd (isNegInverse_of_odd hodd) hy.loose
      have hminus := hsquare.eq_iff hodd (isForm_minusOne hodd (by omega))
      have hone := hsquare.eq_iff hodd (isForm_one (by omega))
      have hnext : ∀ j, x ^ 2 ^ (j + 1) = (x * x) ^ 2 ^ j := by
        intro j
        rw [Nat.pow_succ' (m := 2), Nat.pow_mul, Nat.pow_two]
      have hsplit : (∃ j < count + 1, x ^ 2 ^ (j + 1) ≡ val a - 1 [MOD val a]) ↔
          x * x ≡ val a - 1 [MOD val a] ∨
            ∃ j < count, (x * x) ^ 2 ^ (j + 1) ≡ val a - 1 [MOD val a] := by
        simp only [hnext]
        rw [Nat.exists_lt_succ_left, Nat.pow_zero, Nat.pow_one]
      unfold reachesMinusOne
      apply hrun.bind
      by_cases hm : square = (Candidate.ofOdd a).minusOne
      · rw [if_pos hm, decide_eq_true (hsplit.mpr (.inl (hminus.mp hm)))]
        exact (Work.computes_pure true).mono (Nat.zero_le _)
      rw [if_neg hm]
      by_cases ho : square = (Candidate.ofOdd a).one
      · -- from one on, all squares are one
        have hstays : ∀ j, x ^ 2 ^ (j + 1) ≡ 1 [MOD val a] := by
          intro j
          have h := (hone.mp ho).pow (2 ^ j)
          rwa [Nat.one_pow, ← hnext] at h
        have hnone : ¬ ∃ j < count + 1, x ^ 2 ^ (j + 1) ≡ val a - 1 [MOD val a] := by
          rintro ⟨j, -, h⟩
          have heq := Nat.ModEq.eq_of_lt_of_lt ((hstays j).symm.trans h) (by omega) (by omega)
          omega
        rw [if_pos ho, decide_eq_false hnone]
        exact (Work.computes_pure false).mono (Nat.zero_le _)
      · have hfirst : ¬ x * x ≡ val a - 1 [MOD val a] := fun h => hm (hminus.mpr h)
        rw [if_neg ho, decide_eq_decide.mpr (hsplit.trans (or_iff_right hfirst))]
        exact ih hsquare

/-- A round decides whether the number is strong to its witness. -/
theorem passes_computes {witness : Limbs w} (hlength : witness.length = a.length) :
    Work.Computes (passes (Candidate.ofOdd a) witness) (powerMontDepth a.length)
      (.ok (decide (IsStrongTo (val a) (val witness) (Candidate.ofOdd a).twos
        (val (Candidate.ofOdd a).oddPart)))) := by
  have hm0 := isNegInverse_of_odd hodd
  obtain ⟨-, -, hpos⟩ := ofOdd_split hodd hlarge
  obtain ⟨twos, htwos⟩ := Nat.exists_eq_add_of_le' hpos
  -- the power of the witness, entered into and kept in Montgomery form
  obtain ⟨t, henter, ht⟩ := isForm_enter hodd hm0 hlength (by omega)
  obtain ⟨y, hpower, hy⟩ := powerMont_computes hodd hm0 ht.loose (isForm_one (by omega))
    (Candidate.ofOdd a).oddPart
  have hminus := hy.eq_iff hodd (isForm_minusOne hodd (by omega))
  have hone := hy.eq_iff hodd (isForm_one (by omega))
  have hsquares := reachesMinusOne_computes hodd hlarge twos hy
  unfold passes
  rw [htwos, Nat.add_sub_cancel, decide_eq_decide.mpr isStrongTo_succ_iff]
  refine (henter.mono (by rw [powerMontDepth]; omega)).bind (hpower.bind ?_)
  by_cases hend : y = (Candidate.ofOdd a).one ∨ y = (Candidate.ofOdd a).minusOne
  · rw [if_pos hend, decide_eq_true (hend.imp hone.mp fun h => .inl (hminus.mp h))]
    exact (Work.computes_pure true).mono (Nat.zero_le _)
  · -- neither the first power is one nor minus one, so the squares decide
    rw [if_neg hend]
    rw [not_or] at hend
    rw [decide_eq_decide.mpr ((or_iff_right (mt hone.mpr hend.1)).trans
      (or_iff_right (mt hminus.mpr hend.2)))]
    exact hsquares.mono (by rw [powerMontDepth]; omega)

end Candidate

/-! ## All rounds -/

/-- The answer of some rounds, by a predicate on witnesses. -/
def roundsOutcome (strong : Nat → Bool) (fuel : Nat) (bound : Limbs w) :
    Nat → σ → Checked (Bool × σ)
  | 0, source => .ok (true, source)
  | rounds + 1, source =>
    match sampleBelow fuel bound.length bound source with
    | .error fault => .error fault
    | .ok (none, source) => .ok (false, source)
    | .ok (some x, source) =>
      if strong (val x + 2) then roundsOutcome strong fuel bound rounds source
      else .ok (false, source)

/-- Only fuel can be missing. -/
theorem roundsOutcome_error {strong : Nat → Bool} {fuel rounds : Nat} {bound : Limbs w}
    {source : σ} {fault : Fault}
    (h : roundsOutcome strong fuel bound rounds source = .error fault) : fault = .outOfFuel := by
  induction rounds generalizing source with
  | zero => simp [roundsOutcome] at h
  | succ rounds ih =>
      rw [roundsOutcome] at h
      rcases sampleBelow_cases fuel bound source with hdraw | ⟨rest, hdraw⟩ | ⟨x, rest, hdraw, -, -⟩
      · rw [hdraw] at h
        exact (Except.error.inj h).symm
      · rw [hdraw] at h
        exact absurd h (by simp)
      · rw [hdraw] at h
        dsimp only at h
        split at h
        · exact ih h
        · exact absurd h (by simp)

/-- More fuel does not change an answer. -/
theorem roundsOutcome_mono {strong : Nat → Bool} {fuel larger rounds : Nat} {bound : Limbs w}
    {source : σ} {result : Bool × σ} (hle : fuel ≤ larger)
    (h : roundsOutcome strong fuel bound rounds source = .ok result) :
    roundsOutcome strong larger bound rounds source = .ok result := by
  induction rounds generalizing source with
  | zero => exact h
  | succ rounds ih =>
      rw [roundsOutcome] at h ⊢
      cases hdraw : sampleBelow fuel bound.length bound source with
      | error fault => rw [hdraw] at h; exact absurd h (by simp)
      | ok drawn =>
          obtain ⟨draw, rest⟩ := drawn
          rw [sampleBelow_mono hle hdraw]
          rw [hdraw] at h
          cases draw with
          | none => exact h
          | some x =>
              dsimp only at h ⊢
              split
              · next hstrong => rw [if_pos hstrong] at h; exact ih h
              · next hstrong => rwa [if_neg hstrong] at h

/-- A number that is strong to all witnesses is not rejected, unless the source
refuses to serve. -/
theorem roundsOutcome_ne_false {strong : Nat → Bool} {bound : Limbs w} {good : σ → Prop}
    (hserves : Serves good) (hbound : val bound ≠ 0)
    (hstrong : ∀ x < val bound, strong (x + 2) = true) (fuel rounds : Nat) {source : σ}
    (hsource : good source) :
    ∀ rest, roundsOutcome strong fuel bound rounds source ≠ .ok (false, rest) := by
  induction rounds generalizing source with
  | zero => simp [roundsOutcome]
  | succ rounds ih =>
      intro rest h
      rw [roundsOutcome] at h
      rcases sampleBelow_cases fuel bound source with hdraw | ⟨rest', hdraw⟩ | ⟨x, rest', hdraw, -, hlt⟩
      · rw [hdraw] at h
        exact absurd h (by simp)
      · exact (sampleBelow_of_serves hserves hbound hsource hdraw).1 rfl
      · have hnext := (sampleBelow_of_serves hserves hbound hsource hdraw).2
        rw [hdraw] at h
        dsimp only at h
        rw [if_pos (hstrong _ hlt)] at h
        exact ih hnext rest h

section StrongTest

variable {a : Limbs w} (hodd : val a % 2 = 1)

include hodd

/-- Whether a number is strong to a base, for the split of the number less one
that its test uses. -/
def isStrongBase (a : Limbs w) (b : Nat) : Bool :=
  decide (IsStrongTo (val a) b (Candidate.ofOdd a).twos (val (Candidate.ofOdd a).oddPart))

theorem runRounds_computes (hlarge : 2 < val a) (fuel rounds : Nat) (source : σ) :
    Work.Computes (runRounds fuel (Candidate.ofOdd a) rounds source) (powerMontDepth a.length)
      (roundsOutcome (isStrongBase a) fuel (Candidate.ofOdd a).bound rounds source) := by
  obtain ⟨hblen, hbound⟩ := ofOdd_bound hodd hlarge
  induction rounds generalizing source with
  | zero => exact (Work.computes_pure (true, source)).mono (Nat.zero_le _)
  | succ rounds ih =>
      unfold runRounds
      rw [roundsOutcome]
      rcases sampleBelow_cases fuel (Candidate.ofOdd a).bound source with
        hdraw | ⟨rest, hdraw⟩ | ⟨x, rest, hdraw, hxlen, hxlt⟩
      · rw [hdraw]
        exact Work.Computes.bind_error
          ((Work.computes_lift (.error .outOfFuel)).mono (Nat.zero_le _))
      · rw [hdraw]
        apply Work.Computes.lift_bind rfl
        exact (Work.computes_pure (false, rest)).mono (Nat.zero_le _)
      · rw [hdraw]
        apply Work.Computes.lift_bind rfl
        have halt := val_lt a
        obtain ⟨hsum, -⟩ := val_addWord_of_lt (a := x) (x := 2)
          (by rw [Word.toNat_two, hxlen, hblen]; omega)
        rw [Word.toNat_two] at hsum
        have hwitness : (addWord x 2).1.length = a.length := by
          rw [length_addWord, hxlen, hblen]
        have hpasses := passes_computes hodd hlarge hwitness
        rw [hsum] at hpasses
        apply hpasses.bind
        show Work.Computes (if isStrongBase a (val x + 2) = true then _ else _) _
          (if isStrongBase a (val x + 2) = true then _ else _)
        split
        · exact ih rest
        · exact (Work.computes_pure (false, rest)).mono (Nat.zero_le _)

/-- The strong test of an odd number of at least two words. -/
theorem strongTest_computes (hwords : 2 ≤ wordLen a) (fuel rounds : Nat) (source : σ) :
    Work.Computes (strongTest fuel a rounds source) (roundsDepth a.length)
      (roundsOutcome (isStrongBase a) fuel (Candidate.ofOdd a).bound rounds source) := by
  have hlarge : 2 < val a := by
    have hradix : 2 < 2 ^ w.bits := by cases w <;> decide
    exact lt_of_lt_of_le hradix (radix_le_of_two_words hwords)
  unfold strongTest
  rw [if_neg (by omega), (isOdd_iff a).mpr hodd, if_neg (by decide)]
  refine Work.Computes.withBuffer (fun buffer _ =>
    ⟨(Candidate.ofOdd a).minusOne ++ (Candidate.ofOdd a).oddPart ++ (Candidate.ofOdd a).bound, ?_⟩)
  exact (runRounds_computes hodd hlarge fuel rounds source).then_pure _

end StrongTest

end CryptoPrimes.Prime
