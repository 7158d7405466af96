import CryptoPrimes.Proofs.FactorBase
import CryptoPrimes.Proofs.Limbs.Remainder
import CryptoPrimes.Proofs.Prime.SingleWord
import CryptoPrimes.Proofs.Trapping.Limbs
import CryptoPrimes.Trapping.Prime

/-!
# Small divisors and single words do not trap

No base prime is zero and each fits a word, together with its square.  Numbers of
one word stay below a modulus of one word through the whole test, so their
products fit a double word.  So the test of a single word ends with an answer for every
word of either width, which is that of the plain test.

What is known of that depends on the number.  Below the square of the largest base prime
it is primality.  From there on an odd number is accepted if it is a strong probable
prime to the first twelve primes, which every prime is; an even one is not.
-/

namespace CryptoPrimes.Trapping

open Limbs

variable {w : Width}

/-! ## Division by the factor base -/

theorem lt_radix {p : Nat} (w : Width) (hp : p ∈ FactorBase.primes) : p < 2 ^ w.bits :=
  FactorBase.lt_radix_of_le w ((FactorBase.mem_primes_iff p).mp hp).2.2

theorem ofNat_prime_ne_zero {p : Nat} (hp : p ∈ FactorBase.primes) :
    (Word.ofNat p : Word w) ≠ 0 := by
  have hpos := FactorBase.pos_of_mem hp
  rw [ne_eq, ← Word.toNat_inj, Word.toNat_ofNat_of_lt (lt_radix w hp), Word.toNat_zero]
  omega

theorem modWord_eq (a : Limbs w) {x : Word w} (hx : x ≠ 0) : modWord a x = .ok (remWord a x) := by
  rw [modWord, Checked.require_of hx]
  rfl

theorem noneDivides_eq (a : Limbs w) {ps : List Nat} (hps : ∀ p ∈ ps, p ∈ FactorBase.primes) :
    noneDivides a ps = .ok (ps.all fun p => remWord a (Word.ofNat p) != 0) := by
  induction ps with
  | nil => rfl
  | cons p ps ih =>
      rw [List.forall_mem_cons] at hps
      rw [noneDivides, modWord_eq a (ofNat_prime_ne_zero hps.1), Checked.ok_bind, List.all_cons]
      by_cases hzero : remWord a (Word.ofNat p) = 0
      · rw [if_pos hzero, hzero, bne_self_eq_false, Bool.false_and]
        rfl
      · rw [if_neg hzero, ih hps.2, bne_iff_ne.mpr hzero, Bool.true_and]

theorem isSieved_eq {k : Nat} (hk : k ≤ FactorBase.size) (a : Limbs w) :
    isSieved k a = .ok (FactorBase.isSieved k a) := by
  rw [isSieved, Checked.require_of hk]
  exact noneDivides_eq a fun p hp => List.mem_of_mem_take hp

theorem residueRow_eq (x : Word w) {rs ps : List Nat} (hrs : ∀ r ∈ rs, r < 2 ^ w.bits)
    (hps : ∀ p ∈ ps, p ∈ FactorBase.primes) :
    residueRow x rs ps =
        .ok (List.zipWith (fun r p => (r * 2 ^ w.bits + x.toNat) % p) rs ps) ∧
      ∀ r ∈ List.zipWith (fun r p => (r * 2 ^ w.bits + x.toNat) % p) rs ps, r < 2 ^ w.bits := by
  induction rs generalizing ps with
  | nil => exact ⟨rfl, fun r hr => absurd hr List.not_mem_nil⟩
  | cons r rs ih =>
      cases ps with
      | nil => exact ⟨rfl, fun r hr => absurd hr List.not_mem_nil⟩
      | cons p ps =>
          rw [List.forall_mem_cons] at hrs hps
          obtain ⟨hrest, hlt⟩ := ih hrs.2 hps.2
          have hpos := FactorBase.pos_of_mem hps.1
          refine ⟨?_, ?_⟩
          · rw [residueRow, doubleWord_eq (double_lt hrs.1 x.toNat_lt), Checked.ok_bind,
              remainder_eq _ (by omega), Checked.ok_bind, hrest]
            rfl
          · rw [List.zipWith_cons_cons, List.forall_mem_cons]
            exact ⟨(Nat.mod_lt _ (by omega)).trans (lt_radix w hps.1), hlt⟩

theorem residues_eq {k : Nat} (hk : k ≤ FactorBase.size) (a : Limbs w) :
    residues k a = .ok (FactorBase.residues k a) ∧
      ∀ r ∈ FactorBase.residues k a, r < 2 ^ w.bits := by
  induction a with
  | nil =>
      refine ⟨?_, fun r hr => ?_⟩
      · rw [residues, Checked.require_of hk]
        rfl
      · rw [List.eq_of_mem_replicate hr]
        exact Nat.two_pow_pos _
  | cons x xs ih =>
      obtain ⟨hrow, hlt⟩ := residueRow_eq x ih.2 fun p (hp : p ∈ FactorBase.primes) => hp
      refine ⟨?_, hlt⟩
      rw [residues, ih.1, Checked.ok_bind]
      exact hrow

/-! ## A single word -/

namespace SingleWord

variable {n : Nat}

theorem mulMod_eq {a b m : Nat} (ha : a < 2 ^ w.bits) (hb : b < 2 ^ w.bits) (hm : m ≠ 0) :
    mulMod w a b m = .ok (a * b % m) := by
  have hpos : 0 < 2 ^ w.bits := Nat.two_pow_pos _
  have hproduct := product_lt ha hb hpos hpos
  rw [mulMod, doubleWord_eq (by omega), Checked.ok_bind, remainder_eq _ hm]

theorem powerLoop_eq {m acc base : Nat} (exponent : Nat) (hm : 0 < m) (hlt : m ≤ 2 ^ w.bits)
    (hacc : acc < m) (hbase : base < m) :
    powerLoop w m acc base exponent =
      .ok (CryptoPrimes.SingleWord.powerLoop m acc base exponent) := by
  induction exponent using Nat.strongRecOn generalizing acc base with
  | ind exponent ih =>
      rw [powerLoop, CryptoPrimes.SingleWord.powerLoop]
      by_cases hzero : exponent = 0
      · rw [dif_pos hzero, dif_pos hzero]
        rfl
      have hhalf : exponent / 2 < exponent := by omega
      have hsquare := Nat.mod_lt (base * base) hm
      rw [dif_neg hzero, dif_neg hzero, mulMod_eq (by omega : base < _) (by omega) (by omega)]
      by_cases hodd : exponent % 2 = 1
      · rw [if_pos hodd, if_pos hodd, mulMod_eq (by omega) (by omega) (by omega)]
        exact ih _ hhalf (Nat.mod_lt _ hm) hsquare
      · rw [if_neg hodd, if_neg hodd]
        exact ih _ hhalf hacc hsquare

theorem power_eq (hn : 0 < n) (hlt : n ≤ 2 ^ w.bits) (base exponent : Nat) :
    power w n base exponent = .ok (CryptoPrimes.SingleWord.power n base exponent) := by
  rw [power, remainder_eq _ (by omega), Checked.ok_bind, remainder_eq _ (by omega), Checked.ok_bind]
  exact powerLoop_eq exponent hn hlt (Nat.mod_lt _ hn) (Nat.mod_lt _ hn)

theorem squaresToMinusOne_eq (hn : 0 < n) (hlt : n ≤ 2 ^ w.bits) (count : Nat) {y : Nat}
    (hy : y < 2 ^ w.bits) :
    squaresToMinusOne w n count y =
      .ok (CryptoPrimes.SingleWord.squaresToMinusOne n count y) := by
  induction count generalizing y with
  | zero => rfl
  | succ count ih =>
      rw [squaresToMinusOne, mulMod_eq hy hy (by omega), Checked.ok_bind,
        CryptoPrimes.SingleWord.squaresToMinusOne]
      by_cases hminus : y * y % n = n - 1
      · rw [if_pos hminus, beq_iff_eq.mpr hminus]
        rfl
      · rw [if_neg hminus, ih ((Nat.mod_lt _ hn).trans_le hlt), beq_eq_false_iff_ne.mpr hminus,
          Bool.false_or]

theorem strongToAll_eq (hn : 0 < n) (hlt : n ≤ 2 ^ w.bits) {s d : Nat}
    (hsplit : CryptoPrimes.SingleWord.splitTwos 64 (n - 1) = (s, d)) (bs : List Nat) :
    strongToAll w n s d bs = .ok (bs.all (CryptoPrimes.SingleWord.isStrong n)) := by
  induction bs with
  | nil => rfl
  | cons b bs ih =>
      have hy : CryptoPrimes.SingleWord.power n b d < 2 ^ w.bits := by
        rw [CryptoPrimes.SingleWord.power_eq hn]
        exact (Nat.mod_lt _ hn).trans_le hlt
      rw [strongToAll, power_eq hn hlt, Checked.ok_bind, List.all_cons,
        CryptoPrimes.SingleWord.isStrong, hsplit]
      dsimp only
      generalize CryptoPrimes.SingleWord.power n b d = y at *
      by_cases hend : y = 1 ∨ y = n - 1
      · have hbool : (y == 1 || y == n - 1) = true := by simpa using hend
        rw [if_pos hend, ih, hbool, Bool.true_or, Bool.true_and]
      · have hbool : (y == 1 || y == n - 1) = false := by simpa using hend
        rw [if_neg hend, squaresToMinusOne_eq hn hlt _ hy, Checked.ok_bind, hbool, Bool.false_or]
        cases CryptoPrimes.SingleWord.squaresToMinusOne n (s - 1) y
        · rfl
        · exact ih

theorem trialDivide_eq (w : Width) (n : Nat) {ps : List Nat}
    (hps : ∀ p ∈ ps, p ∈ FactorBase.primes) :
    trialDivide w n ps =
      .ok ((ps.takeWhile fun p => p * p ≤ n).all fun p => n % p != 0) := by
  induction ps with
  | nil => rfl
  | cons p ps ih =>
      rw [List.forall_mem_cons] at hps
      have hpos := FactorBase.pos_of_mem hps.1
      have hsquare : p * p < 2 ^ w.bits := by
        have hle := ((FactorBase.mem_primes_iff p).mp hps.1).2.2
        calc p * p ≤ FactorBase.largest * FactorBase.largest := Nat.mul_le_mul hle hle
          _ < 2 ^ w.bits := by cases w <;> decide
      rw [trialDivide, singleWord_eq hsquare, Checked.ok_bind]
      by_cases hroot : n < p * p
      · rw [if_pos hroot, List.takeWhile_cons_of_neg (by simpa using hroot)]
        rfl
      rw [if_neg hroot, remainder_eq _ (by omega), Checked.ok_bind,
        List.takeWhile_cons_of_pos (by simpa using hroot), List.all_cons]
      by_cases hzero : n % p = 0
      · rw [if_pos hzero, hzero, bne_self_eq_false, Bool.false_and]
        rfl
      · rw [if_neg hzero, ih hps.2, bne_iff_ne.mpr hzero, Bool.true_and]

theorem isPrime_eq (x : Word w) :
    isPrime x = .ok (CryptoPrimes.SingleWord.isPrime x.toNat) := by
  rw [isPrime, CryptoPrimes.SingleWord.isPrime]
  by_cases htwo : x.toNat < 2
  · rw [if_pos htwo, if_pos htwo]
    rfl
  rw [if_neg htwo, if_neg htwo]
  by_cases heven : x.toNat % 2 = 0
  · rw [if_pos heven, if_pos heven]
    rfl
  rw [if_neg heven, if_neg heven]
  by_cases hsmall : x.toNat < CryptoPrimes.SingleWord.trialBound
  · rw [if_pos hsmall, if_pos hsmall]
    exact trialDivide_eq w x.toNat fun p hp => hp
  have hone : (1 : Word w).toNat ≤ x.toNat := by
    rw [Word.toNat_one]
    omega
  have hpred := Word.toNat_sub_of_le hone
  rw [Word.toNat_one] at hpred
  obtain ⟨hshift, hdvd, hodd⟩ := Word.trailingZeros_spec (x := x - 1) (by omega)
  have hsize := x.toNat_lt
  have hregister : 2 ^ w.bits ≤ 2 ^ 64 := by cases w <;> decide
  rw [if_neg hsmall, if_neg hsmall, wordDifference_eq hone, Checked.ok_bind,
    Checked.require_of hshift, Checked.ok_bind,
    Word.toNat_shiftRight _ (Word.bits_lt_register w hshift)]
  refine strongToAll_eq (by omega) (by omega)
    (CryptoPrimes.SingleWord.splitTwos_eq 64 hodd ?_ (by omega)) _
  rw [Nat.mul_div_cancel' hdvd, hpred]

/-! ## What the answer says -/

open CryptoPrimes.SingleWord CryptoPrimes.Prime

/-- What an answer about the number `n` of one word says. -/
structure IsVerdict (n : Nat) (answer : Bool) : Prop where
  prime : n.Prime → answer = true
  small : n < 8167 ^ 2 → (answer = true ↔ n.Prime)
  even : n % 2 = 0 → (answer = true ↔ n = 2)
  odd : n % 2 = 1 → 8167 ^ 2 ≤ n → ∀ s d, d % 2 = 1 → n - 1 = 2 ^ s * d →
    (answer = true ↔
      ∀ b ∈ [2, 3, 5, 7, 11, 13, 17, 19, 23, 29, 31, 37], IsStrongTo n b s d)

/-- The plain test gives verdicts. -/
theorem isVerdict_isPrime {n : Nat} (hn : n ≤ 2 ^ 64) :
    IsVerdict n (CryptoPrimes.SingleWord.isPrime n) where
  prime := isPrime_of_prime
  small := isPrime_iff
  even := isPrime_even
  odd hodd hlarge _ _ hd hsplit := isPrime_odd hodd hlarge hn hd hsplit.symm

/-- The test ends with a verdict on every word. -/
theorem isPrime_decides (x : Word w) :
    ∃ answer, isPrime x = .ok answer ∧ IsVerdict x.toNat answer := by
  have hregister : 2 ^ w.bits ≤ 2 ^ 64 := Nat.pow_le_pow_right (by decide) w.bits_le
  exact ⟨_, isPrime_eq x, isVerdict_isPrime (x.toNat_lt.le.trans hregister)⟩

end SingleWord

end CryptoPrimes.Trapping
