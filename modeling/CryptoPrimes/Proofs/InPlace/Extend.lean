import CryptoPrimes.Proofs.InPlace.Division
import CryptoPrimes.Proofs.InPlace.Next
import CryptoPrimes.Proofs.Trapping.Extend

/-!
# The search for a given factor in place follows its form on values

The number to be divided is cleared before each of its two values is set, and its
words take the number of multipliers in the end; the remainder of the first
division is overwritten by the second.  A trial overwrites the draw and the
candidate of the one before.
-/

namespace CryptoPrimes.InPlace

open Limbs CryptoPrimes.Modular Trapping

variable {w : Width} {σ : Type} [ByteSource σ] {n m : Nat}

/-! ## Rows of a product -/

theorem follows_mulRows (a : Limbs w) (i : Nat) {c : Limbs w} (hc : c.length = n) (b : Limbs w) :
    Checked.Follows (Same n) (Trapping.mulRows a i c b)
      (Trapping.mulRows a i c b) := by
  induction b generalizing i c with
  | nil => exact .result ⟨rfl, hc⟩
  | cons y ys ih =>
      unfold Trapping.mulRows
      refine .same_bind fun last => .same_bind fun window => .same_bind fun row => ?_
      refine (follows_write _ _ _ hc).bind ?_
      rintro c _ ⟨rfl, hc⟩
      refine (follows_setWord _ _ hc).bind ?_
      rintro c _ ⟨rfl, hc⟩
      exact ih (i + 1) hc

theorem follows_mul {target : Limbs w} (htarget : target.length = n) (a b : Limbs w) :
    Checked.Follows (Same n) (mul target a b) (Trapping.mul n a b) := by
  unfold mul Trapping.mul
  rw [cleared_eq_zeros, htarget]
  exact .same_bind fun _ => follows_mulRows a 0 (length_zeros n) b

/-! ## The range of multipliers -/

theorem follows_powerLess {target : Limbs w} (htarget : target.length = n) (bit : Nat)
    (x : Word w) :
    Checked.Follows (Same n) (powerLess target bit x) (Prime.powerLess n bit x) := by
  unfold powerLess Prime.powerLess setBit
  rw [cleared_eq_zeros, htarget]
  refine (Checked.Follows.same_bind fun _ => .result (R := Same n) ⟨rfl, ?_⟩).bind ?_
  · rw [List.length_modify, length_zeros]
  · rintro power _ ⟨rfl, hpower⟩
    exact .result ⟨rfl, (length_subWord power x).trans hpower⟩

theorem follows_shlCarry {a : Limbs w} (ha : a.length = n) (distance : Nat) :
    Checked.Follows (fun d d' => d = d' ∧ d.1.length = n) (shlCarry a distance)
      (shlCarry a distance) := by
  unfold shlCarry
  exact .same_bind fun _ => .result ⟨rfl, (length_shlWithin a distance).trans ha⟩

/-- The range, and the words left for the number of multipliers. -/
theorem follows_multipliers {buffer : Limbs w} (hbuffer : buffer.length = 8 * m) (bits : Nat)
    (q : Limbs w) :
    Work.Follows (divRemDepth m m) (fun p range => p.1 = range ∧ p.2.1.length = m)
      (multipliers buffer m bits q) (Trapping.multipliers m bits q) := by
  unfold multipliers Trapping.multipliers
  rw [cleared_eq_zeros, length_part hbuffer (by decide)]
  refine .lift_bind (follows_write _ _ _ (length_zeros m)) ?_
  rintro doubled _ ⟨rfl, hdoubled⟩
  refine .lift_bind (follows_shlCarry hdoubled 1) ?_
  rintro ⟨step, carry⟩ _ ⟨rfl, hstep⟩
  refine .same_bind fun lowBit => ?_
  refine .lift_bind (follows_powerLess (length_part hbuffer (by decide)) lowBit 1) ?_
  rintro num _ ⟨rfl, hnum⟩
  have hdepth : divRemDepth num.length step.length = divRemDepth m m := by rw [hnum, hstep]
  refine ((follows_divRem (length_part hbuffer (by decide))
    (length_part hbuffer (by decide))).mono hdepth.le).bind ?_
  rintro ⟨least, rem⟩ _ ⟨rfl, hrem⟩
  have hrem : rem.length = m := hrem
  refine .same_bind fun least => ?_
  refine .lift_bind (follows_powerLess hnum bits 2) ?_
  rintro num _ ⟨rfl, hnum⟩
  have hdepth : divRemDepth num.length step.length = divRemDepth m m := by rw [hnum, hstep]
  refine ((follows_divRem (length_part hbuffer (by decide)) hrem).mono hdepth.le).bind ?_
  rintro ⟨greatest, rem⟩ _ ⟨rfl, -⟩
  exact Work.follows_pure ⟨rfl, hnum⟩

theorem count_eq {num : Limbs w} (hnum : num.length = m) (range : Prime.Multipliers w) :
    count num range = Trapping.count m range := by
  unfold count Trapping.count
  rw [sub_eq, hnum]

/-! ## The trials -/

theorem follows_candidate {x cand : Limbs w} (hx : x.length = m) (hcand : cand.length = 2 * m)
    (hsize : 2 * m < sizeLimit) (range : Prime.Multipliers w) :
    Checked.Follows (fun p c => p.2 = c ∧ p.1.length = m ∧ p.2.length = 2 * m)
      (candidate range x cand) (Trapping.candidate m range x) := by
  unfold candidate Trapping.candidate Limbs.add
  rw [hx, checkedSize_eq hsize]
  refine Checked.Follows.bind (R := fun r r' => r = r' ∧ r.1.length = m) ?_ ?_
  · refine (follows_require _).bind fun _ _ h => .result ⟨rfl, ?_⟩
    exact (length_addCarry (hx.trans h.2) false).trans hx
  · rintro r _ ⟨rfl, hr⟩
    rw [Checked.ok_bind]
    refine (follows_mul hcand r.1 range.step).bind ?_
    rintro product _ ⟨rfl, hproduct⟩
    exact .result ⟨rfl, hr, (length_addWord product 1).trans hproduct⟩

theorem follows_runTrials (limits : Prime.TrialLimits) (range : Prime.Multipliers w)
    (bound p : Limbs w) (hsize : 2 * m < sizeLimit) (remaining trial : Nat) {x cand : Limbs w}
    (hx : x.length = m) (hcand : cand.length = 2 * m) (source : σ) :
    Search.Follows (Prime.isPrimeDepth p.length) (fun p p' => p.1 = p')
      (runTrials limits range bound p remaining trial x cand source)
      (Trapping.runTrials limits m range bound p remaining trial source) := by
  induction remaining generalizing trial x cand source with
  | zero => exact .after_emit _ (Search.follows_pure rfl)
  | succ remaining ih =>
      unfold runTrials Trapping.runTrials
      refine .attempt_bind (follows_sampleBelow ask limits.fuel hx bound source) ?_
      rintro ⟨⟨served, x⟩, source⟩ ⟨draw, _⟩ ⟨hdraw, rfl, hx⟩
      obtain rfl : draw = if served then some x else none := hdraw
      cases served with
      | false => exact .after_emit _ (Search.follows_pure rfl)
      | true =>
          refine .attempt_bind (follows_candidate hx hcand hsize range) ?_
          rintro ⟨x, cand⟩ _ ⟨rfl, hx, hcand⟩
          refine .same_bind fun bits => .ensure_bind _ fun _ => .same_bind fun survives => ?_
          split
          · refine .after_emit _ (.attempt_bind (follows_slice 0 p.length) ?_)
            rintro result _ ⟨rfl, hresult⟩
            have htest := Search.follows_quietly (follows_isPrime limits.fuel result)
            rw [hresult, Nat.sub_zero] at htest
            refine htest.bind ?_
            rintro found _ rfl
            split
            · rw [store]
              exact .same_bind fun p => .after_emit _ (Search.follows_pure rfl)
            · exact ih (trial + 1) hx hcand source
          · exact ih (trial + 1) hx hcand source

/-! ## The whole search -/

theorem follows_extendPrime {k : Nat} (fuel : Nat) (p : Limbs w) (bits : Nat) (q : Limbs w)
    (trials : Nat) (source : σ) :
    Search.Follows (Prime.extendPrimeDepth p.length q.length) Eq
      (extendPrime fuel p bits q trials k source)
      (Trapping.extendPrime fuel p bits q trials k source) := by
  unfold extendPrime Trapping.extendPrime Prime.extendPrimeDepth Prime.workingWords
  dsimp only
  refine .ensure_bind _ fun _ => .same_bind fun width => ?_
  split
  · exact Search.follows_pure rfl
  refine .attempt_bind (follows_checkedSize _) ?_
  rintro m _ ⟨rfl, rfl, -⟩
  refine .attempt_bind (follows_checkedSize _) ?_
  rintro _ _ ⟨rfl, rfl, hsize⟩
  generalize max p.length q.length + 1 = m at *
  have hwords : 6 * m + 2 * m = 8 * m := by omega
  rw [hwords]
  refine .withBuffer fun buffer _ hbuffer _ => ?_
  have hcand : (buffer.drop (6 * m)).length = 2 * m := by
    rw [List.length_drop, hbuffer]
    omega
  refine ((Search.follows_quietly (follows_multipliers hbuffer bits q)).mono
    (Nat.le_max_left _ _)).bind ?_
  rintro ⟨range, num, rem⟩ _ ⟨rfl, hnum⟩
  refine .same_bind fun order => ?_
  split
  · exact .after_emit _ (Search.follows_pure rfl)
  rw [count_eq hnum]
  refine .same_bind fun bound => ?_
  refine ((follows_runTrials ⟨trials, k, bits, fuel⟩ range bound p hsize trials 1
    (length_part hbuffer (by decide)) hcand source).mono (Nat.le_max_right _ _)).bind ?_
  rintro ⟨result, drawn⟩ _ rfl
  exact Search.follows_pure rfl

end CryptoPrimes.InPlace
