import CryptoPrimes.Proofs.Prime.Rounds
import CryptoPrimes.Proofs.Trapping.Modular
import CryptoPrimes.Proofs.Trapping.Sieve

/-!
# The trapping strong test does not trap

The plain test takes what a byte source answers; the trapping one asks through a
function that may fault.  On a set of states from which requests do not fault and
do not leave the set (`Faithful`), both draw the same words, hence the same
witnesses, and a round takes the same way through both.

The only fault that is left is that of the fuel that bounds the blocks of one
draw (`OnlyFuel`).
-/

namespace CryptoPrimes.Trapping

open Limbs CryptoPrimes.Modular

variable {w : Width} {σ : Type} [ByteSource σ]
  {request : σ → Nat → Checked (Option Octets × σ)} {good : σ → Prop}

/-- Running out of fuel is the only way to end without a result. -/
def OnlyFuel {α : Type} (out : Checked α) : Prop := ∀ fault, out = .error fault → fault = .outOfFuel

theorem onlyFuel_ok {α : Type} (a : α) : OnlyFuel (.ok a) := fun _ h => nomatch h

theorem onlyFuel_error {α : Type} : OnlyFuel (.error .outOfFuel : Checked α) :=
  fun _ h => (Except.error.inj h).symm

/-! ## Samples -/

/-- Requests are answered as the source answers them, from all the given states. -/
def Faithful (request : σ → Nat → Checked (Option Octets × σ)) (good : σ → Prop) : Prop :=
  ∀ source n, good source →
    request source n = .ok (ByteSource.request source n) ∧ good (ByteSource.request source n).2

theorem faithful_ask : Faithful (σ := σ) ask fun _ => True := fun _ _ _ => ⟨rfl, trivial⟩

theorem drawWords_eq (hfaithful : Faithful request good) (n : Nat) {source : σ}
    (hsource : good source) :
    drawWords (w := w) request n source = .ok (CryptoPrimes.drawWords n source) ∧
      good (CryptoPrimes.drawWords (w := w) n source).2 := by
  induction n generalizing source with
  | zero => exact ⟨rfl, hsource⟩
  | succ n ih =>
      obtain ⟨hrequest, hnext⟩ := hfaithful source w.octets hsource
      rw [drawWords, hrequest, Checked.ok_bind, CryptoPrimes.drawWords]
      generalize ByteSource.request source w.octets = answer at *
      obtain ⟨answer, rest⟩ := answer
      cases answer with
      | none => exact ⟨rfl, hnext⟩
      | some octets =>
          dsimp only
          rw [(ih hnext).1]
          exact ⟨rfl, (ih hnext).2⟩

theorem sample_eq (hfaithful : Faithful request good) {m : Limbs w} {bits : Nat}
    (hsize : m.length < sizeLimit) (fuel : Nat) {source : σ} (hsource : good source) :
    sample request m bits fuel source =
        CryptoPrimes.sample (less · m) m.length bits fuel source ∧
      ∀ result, CryptoPrimes.sample (less · m) m.length bits fuel source = .ok result →
        good result.2 := by
  induction fuel generalizing source with
  | zero => exact ⟨rfl, fun _ h => nomatch h⟩
  | succ fuel ih =>
      obtain ⟨hdraw, hnext⟩ := drawWords_eq (w := w) hfaithful m.length hsource
      rw [sample, hdraw, Checked.ok_bind, CryptoPrimes.sample]
      have hlength := @length_drawWords w σ _ m.length source
      generalize CryptoPrimes.drawWords (w := w) m.length source = answer at *
      obtain ⟨answer, rest⟩ := answer
      cases answer with
      | none =>
          refine ⟨rfl, fun result h => ?_⟩
          cases h
          exact hnext
      | some block =>
          have hblock : block.length = m.length := hlength rfl
          dsimp only
          rw [trimBits_eq (by omega), Checked.ok_bind,
            compareSame_eq (by rw [length_trimBits, hblock]), Checked.ok_bind, isLT_compare]
          by_cases haccept : less (Limbs.trimBits block bits) m = true
          · rw [if_pos haccept, if_pos haccept]
            refine ⟨rfl, fun result h => ?_⟩
            cases h
            exact hnext
          · rw [if_neg haccept, if_neg haccept]
            exact ih hnext

theorem sampleBelow_eq (hfaithful : Faithful request good) (fuel : Nat) {m : Limbs w}
    (hsize : m.length < sizeLimit) (hbits : w.bits * wordLen m < sizeLimit) (source : σ)
    (hsource : good source) :
    sampleBelow request fuel m.length m source =
        CryptoPrimes.sampleBelow fuel m.length m source ∧
      ∀ result, CryptoPrimes.sampleBelow fuel m.length m source = .ok result →
        good result.2 := by
  rw [sampleBelow, CryptoPrimes.sampleBelow, Checked.require_of rfl, Checked.ok_bind,
    Checked.ok_bind]
  by_cases hzero : isZero m = true
  · rw [if_pos hzero, if_pos hzero]
    refine ⟨rfl, fun result h => ?_⟩
    cases h
    exact hsource
  · rw [if_neg hzero, if_neg hzero, bitLen_of_wordLen hbits, Checked.ok_bind]
    exact sample_eq hfaithful hsize fuel hsource

theorem onlyFuel_sampleBelow (fuel : Nat) (m : Limbs w) (source : σ) :
    OnlyFuel (CryptoPrimes.sampleBelow fuel m.length m source) := by
  rcases sampleBelow_cases fuel m source with h | ⟨rest, h⟩ | ⟨x, rest, h, -⟩
  · rw [h]
    exact onlyFuel_error
  · rw [h]
    exact onlyFuel_ok _
  · rw [h]
    exact onlyFuel_ok _

/-- A number that is drawn has the length of its bound and is below it. -/
theorem draw_lt {fuel : Nat} {m x : Limbs w} {source rest : σ}
    (h : CryptoPrimes.sampleBelow fuel m.length m source = .ok (some x, rest)) :
    x.length = m.length ∧ val x < val m := by
  rcases sampleBelow_cases fuel m source with h' | ⟨rest', h'⟩ | ⟨x', rest', h', hlt⟩
  · exact nomatch h.symm.trans h'
  · exact nomatch h.symm.trans h'
  · cases h.symm.trans h'
    exact hlt

/-! ## One round -/

variable {a : Limbs w}

theorem candidateOfOdd_eq (hodd : val a % 2 = 1) (hbits : w.bits * a.length < sizeLimit) :
    candidateOfOdd a = .ok (Prime.Candidate.ofOdd a) := by
  have hne : a ≠ [] := by
    rintro rfl
    simp at hodd
  have hinverse : (a.headD 0).negInverse? = .ok (a.headD 0).negInverse := by
    have h := montConstant_eq hodd
    rwa [montConstant, Checked.require_of hne] at h
  have heven : w.bits * (subWord a 1).1.length < sizeLimit := by rwa [length_subWord]
  rw [candidateOfOdd, subWordTo_eq, Checked.ok_bind, trailingZeros_eq heven, Checked.ok_bind,
    shiftRight_eq, Checked.ok_bind, subWordTo_eq, Checked.ok_bind, wordAt_zero hne, Checked.ok_bind,
    hinverse, Checked.ok_bind, radixSquareMod_eq hbits, Checked.ok_bind, radixMod_eq hbits,
    Checked.ok_bind, sub_eq rfl (length_radixMod a).symm]
  rfl

theorem length_ofOdd_one (a : Limbs w) : (Prime.Candidate.ofOdd a).one.length = a.length :=
  length_radixMod a

theorem length_ofOdd_minusOne (a : Limbs w) :
    (Prime.Candidate.ofOdd a).minusOne.length = a.length :=
  length_subBorrow (length_radixMod a).symm false

/-- A comparison of numbers of one length, and the way both forms take after it. -/
theorem agree_ifEqual {α : Type} {x y : Limbs w} (hlength : x.length = y.length)
    {same same' other other' : Work w α} {depth : Nat}
    (hsame : ∃ r, Work.Agree same same' depth (.ok r))
    (hother : ∃ r, Work.Agree other other' depth (.ok r)) :
    ∃ r, Work.Agree (if x = y then same else other)
      (liftM (equalSame x y) >>= fun equal => if equal = true then same' else other') depth
      (.ok r) := by
  by_cases h : x = y
  · obtain ⟨r, hr⟩ := hsame
    refine ⟨r, .settle (equalSame_eq hlength) ?_⟩
    rwa [if_pos h, if_pos (beq_iff_eq.mpr h)]
  · obtain ⟨r, hr⟩ := hother
    refine ⟨r, .settle (equalSame_eq hlength) ?_⟩
    rwa [if_neg h, if_neg (by rwa [beq_iff_eq])]

theorem agree_answer (answer : Bool) (depth : Nat) :
    ∃ r, Work.Agree (w := w) (pure answer) (pure answer) depth (.ok r) :=
  ⟨answer, (Work.agree_pure answer).mono (Nat.zero_le _)⟩

theorem reachesMinusOne_agree (hodd : val a % 2 = 1) (hbits : w.bits * a.length < sizeLimit)
    (count : Nat) {y : Limbs w} (hy : y.length = a.length) :
    ∃ answer, Work.Agree (Prime.reachesMinusOne (.ofOdd a) count y)
      (reachesMinusOne (.ofOdd a) count y) (montMulDepth a.length) (.ok answer) := by
  induction count generalizing y with
  | zero => exact agree_answer false _
  | succ count ih =>
      obtain ⟨square, hsquare, hlength⟩ :=
        montMul_agree hodd (isNegInverse_of_odd hodd) hy hy hbits
      obtain ⟨answer, hanswer⟩ := agree_ifEqual (hlength.trans (length_ofOdd_minusOne a).symm)
        (agree_answer true _)
        (agree_ifEqual (hlength.trans (length_ofOdd_one a).symm) (agree_answer false _)
          (ih hlength))
      exact ⟨answer, hsquare.bind hanswer⟩

theorem passes_agree (hodd : val a % 2 = 1) (hbits : w.bits * a.length < sizeLimit)
    {witness : Limbs w} (hwitness : witness.length = a.length) :
    ∃ answer, Work.Agree (Prime.passes (.ofOdd a) witness) (passes (.ofOdd a) witness)
      (powerMontDepth a.length) (.ok answer) := by
  have hm0 := isNegInverse_of_odd hodd
  have hle : montMulDepth a.length ≤ powerMontDepth a.length := Nat.le_add_left _ _
  obtain ⟨t, ht, htlen⟩ := montMul_agree hodd hm0 hwitness (length_radixSquareMod a) hbits
  obtain ⟨y, hy, hylen⟩ := powerMont_agree hodd hm0 htlen (length_radixMod a) hbits
    (Prime.Candidate.ofOdd a).oddPart
  obtain ⟨answer, hsquares⟩ :=
    reachesMinusOne_agree hodd hbits ((Prime.Candidate.ofOdd a).twos - 1) hylen
  obtain ⟨answer, hanswer⟩ := agree_ifEqual (hylen.trans (length_ofOdd_one a).symm)
    (agree_answer true _)
    (agree_ifEqual (hylen.trans (length_ofOdd_minusOne a).symm) (agree_answer true _)
      ⟨answer, hsquares.mono hle⟩)
  rw [← ite_or] at hanswer
  exact ⟨answer, (ht.mono hle).bind (hy.bind hanswer)⟩

/-! ## All rounds -/

theorem runRounds_agree (hfaithful : Faithful request good) (hodd : val a % 2 = 1)
    (hbits : w.bits * a.length < sizeLimit) (fuel rounds : Nat) {source : σ}
    (hsource : good source) :
    ∃ out, Work.Agree (Prime.runRounds fuel (.ofOdd a) rounds source)
      (runRounds request fuel (.ofOdd a) rounds source) (powerMontDepth a.length) out ∧
      OnlyFuel out := by
  have hbound : (Prime.Candidate.ofOdd a).bound.length = a.length := length_subWord a 3
  have hsize : a.length < sizeLimit := (Nat.le_mul_of_pos_left _ w.bits_pos).trans_lt hbits
  induction rounds generalizing source with
  | zero => exact ⟨_, (Work.agree_pure _).mono (Nat.zero_le _), onlyFuel_ok _⟩
  | succ rounds ih =>
      have hwords := wordLen_le_length (Prime.Candidate.ofOdd a).bound
      rw [hbound] at hwords
      obtain ⟨hdraw, hnext⟩ := sampleBelow_eq hfaithful fuel
        (m := (Prime.Candidate.ofOdd a).bound) (by rw [hbound]; exact hsize)
        ((Nat.mul_le_mul_left _ hwords).trans_lt hbits) source hsource
      have hcases := sampleBelow_cases fuel (Prime.Candidate.ofOdd a).bound source
      rw [hbound] at hdraw hnext hcases
      rw [Prime.runRounds, runRounds, hbound]
      rcases hcases with h | ⟨rest, h⟩ | ⟨x, rest, h, hxlen, -⟩
      · rw [h] at hdraw
        exact ⟨_, .settle_error h hdraw, onlyFuel_error⟩
      · rw [h] at hdraw
        exact ⟨_, .settle_both h hdraw ((Work.agree_pure (false, rest)).mono (Nat.zero_le _)),
          onlyFuel_ok _⟩
      · rw [h] at hdraw
        obtain ⟨answer, hpasses⟩ := passes_agree hodd hbits
          (by rw [length_addWord, hxlen] : (addWord x 2).1.length = a.length)
        cases answer with
        | false =>
            refine ⟨.ok (false, rest), .settle_both h hdraw (hpasses.bind ?_), onlyFuel_ok _⟩
            exact (Work.agree_pure (false, rest)).mono (Nat.zero_le _)
        | true =>
            obtain ⟨out, hrest, hfuel⟩ := ih (hnext _ h)
            exact ⟨out, .settle_both h hdraw (hpasses.bind hrest), hfuel⟩

theorem strongTestFrom_agree (hfaithful : Faithful request good)
    (hbits : w.bits * a.length < sizeLimit) (fuel rounds : Nat) {source : σ}
    (hsource : good source) :
    ∃ out, Work.Agree (Prime.strongTest fuel a rounds source)
      (strongTestFrom request fuel a rounds source) (Prime.roundsDepth a.length) out ∧
      OnlyFuel out := by
  rw [Prime.strongTest, strongTestFrom]
  by_cases hshort : wordLen a ≤ 1
  · rw [if_pos hshort, if_pos hshort]
    refine ⟨.ok (CryptoPrimes.SingleWord.isPrime (a.headD 0).toNat, source),
      .settle (SingleWord.isPrime_eq _) ?_, onlyFuel_ok _⟩
    exact (Work.agree_pure _).mono (Nat.zero_le _)
  have hne : a ≠ [] := by
    rintro rfl
    exact hshort (Nat.zero_le _)
  have hhead : isOdd a = (a.headD 0).isOdd := by
    cases a with
    | nil => exact absurd rfl hne
    | cons x xs => rfl
  rw [if_neg hshort, if_neg hshort]
  cases hparity : isOdd a with
  | false =>
      refine ⟨.ok (false, source), .settle (wordAt_zero hne) ?_, onlyFuel_ok _⟩
      rw [← hhead, hparity]
      exact (Work.agree_pure _).mono (Nat.zero_le _)
  | true =>
      have hodd := (isOdd_iff a).mp hparity
      obtain ⟨out, hrounds, hfuel⟩ := runRounds_agree hfaithful hodd hbits fuel rounds hsource
      refine ⟨out, .settle (wordAt_zero hne) ?_, hfuel⟩
      rw [← hhead, hparity, if_neg (by decide), if_neg (by decide)]
      refine .withBuffer fun _ _ => ⟨(Prime.Candidate.ofOdd a).minusOne ++
        (Prime.Candidate.ofOdd a).oddPart ++ (Prime.Candidate.ofOdd a).bound, ?_⟩
      refine .settle (candidateOfOdd_eq hodd hbits) ?_
      exact hrounds.then_pure _

end CryptoPrimes.Trapping
