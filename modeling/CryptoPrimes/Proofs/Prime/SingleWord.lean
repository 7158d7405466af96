import Mathlib.Data.List.TakeWhile
import CryptoPrimes.Prime.SingleWord
import CryptoPrimes.Proofs.FactorBase
import CryptoPrimes.Proofs.Prime.Strong

/-!
# Primality of a single word

The power loop computes powers (`power_eq`), and `isStrong` is the strong test
(`isStrong_iff`), so a prime of any size is accepted (`isPrime_of_prime`).
Below the square of the largest base prime, trial division also rejects every
other number (`isPrime_iff`); beyond it the verdict on an odd number is that of
the twelve strong tests (`isPrime_odd`).
-/

namespace CryptoPrimes.SingleWord

open FactorBase CryptoPrimes.Prime

/-! ## Powers and squares -/

theorem powerLoop_spec {n : Nat} (hn : 0 < n) (acc base exponent : Nat) (hacc : acc < n) :
    powerLoop n acc base exponent = acc * base ^ exponent % n := by
  induction exponent using Nat.strongRecOn generalizing acc base with
  | ind exponent ih =>
      unfold powerLoop
      split
      · next h => rw [h, Nat.pow_zero, Nat.mul_one, Nat.mod_eq_of_lt hacc]
      · next h =>
          have hhalf : exponent / 2 < exponent := Nat.div_lt_self (Nat.pos_of_ne_zero h) (by decide)
          have hsquares :
              (base * base % n) ^ (exponent / 2) ≡ base ^ (2 * (exponent / 2)) [MOD n] := by
            rw [Nat.pow_mul, Nat.pow_two]
            exact (Nat.mod_modEq _ _).pow _
          rw [ih _ hhalf _ _ (by split <;> first | exact Nat.mod_lt _ hn | exact hacc)]
          split
          · next hodd =>
              have hexponent : exponent = 2 * (exponent / 2) + 1 := by omega
              calc acc * base % n * (base * base % n) ^ (exponent / 2)
                  ≡ acc * base * base ^ (2 * (exponent / 2)) [MOD n] :=
                    (Nat.mod_modEq _ _).mul hsquares
                _ = acc * base ^ exponent := by
                    conv => rhs; rw [hexponent, Nat.pow_succ]
                    ring
          · next heven =>
              have hexponent : 2 * (exponent / 2) = exponent := by omega
              rw [hexponent] at hsquares
              exact hsquares.mul_left acc

theorem power_eq {n : Nat} (hn : 0 < n) (base exponent : Nat) :
    power n base exponent = base ^ exponent % n := by
  unfold power
  rw [powerLoop_spec hn _ _ _ (Nat.mod_lt _ hn)]
  have h := (Nat.mod_modEq 1 n).mul ((Nat.mod_modEq base n).pow exponent)
  rw [Nat.one_mul] at h
  exact h

theorem squaresToMinusOne_iff {n : Nat} (hn : 1 < n) (count y : Nat) :
    squaresToMinusOne n count y = true ↔ ∃ j < count, y ^ 2 ^ (j + 1) ≡ n - 1 [MOD n] := by
  have hpred : (n - 1) % n = n - 1 := Nat.mod_eq_of_lt (by omega)
  induction count generalizing y with
  | zero => simp [squaresToMinusOne]
  | succ count ih =>
      have hnext : ∀ j, (y * y % n) ^ 2 ^ (j + 1) ≡ y ^ 2 ^ (j + 1 + 1) [MOD n] := by
        intro j
        have hexponent : 2 ^ (j + 1 + 1) = 2 * 2 ^ (j + 1) := Nat.pow_succ'
        rw [hexponent, Nat.pow_mul, Nat.pow_two]
        exact (Nat.mod_modEq _ _).pow _
      unfold squaresToMinusOne
      rw [Bool.or_eq_true, beq_iff_eq, Nat.exists_lt_succ_left]
      refine or_congr ?_ ((ih _).trans (exists_congr fun j => and_congr_right fun _ => ?_))
      · rw [Nat.ModEq, hpred, Nat.zero_add, Nat.pow_one, Nat.pow_two]
      · exact ⟨(hnext j).symm.trans, (hnext j).trans⟩

/-! ## The strong test -/

theorem splitTwos_mul (fuel n : Nat) : 2 ^ (splitTwos fuel n).1 * (splitTwos fuel n).2 = n := by
  induction fuel generalizing n with
  | zero => simp [splitTwos]
  | succ fuel ih =>
      unfold splitTwos
      split
      · have h := ih (n / 2)
        rw [Nat.pow_succ', Nat.mul_assoc, h]
        omega
      · simp

/-- The split into a power of two and an odd part is the only one. -/
theorem splitTwos_eq (fuel : Nat) {n twos odd : Nat} (hodd : odd % 2 = 1)
    (h : 2 ^ twos * odd = n) (hn : n < 2 ^ fuel) : splitTwos fuel n = (twos, odd) := by
  induction fuel generalizing n twos with
  | zero =>
      have := Nat.mul_pos (Nat.two_pow_pos twos) (by omega : 0 < odd)
      omega
  | succ fuel ih =>
      rw [Nat.pow_succ] at hn
      rw [splitTwos]
      cases twos with
      | zero =>
          have hparity : ¬ n % 2 = 0 := by omega
          rw [if_neg hparity, ← h, Nat.pow_zero, Nat.one_mul]
      | succ twos =>
          rw [Nat.pow_succ', Nat.mul_assoc] at h
          have hhalf : 2 ^ twos * odd = n / 2 := by omega
          rw [if_pos (by omega), ih hhalf (by omega)]

/-- An even number has a factor two to split off. -/
theorem exists_splitTwos (fuel : Nat) {n : Nat} (h : n % 2 = 0) :
    ∃ twos odd, splitTwos (fuel + 1) n = (twos + 1, odd) := by
  rw [splitTwos, if_pos h]
  exact ⟨_, _, rfl⟩

/-- The executed test of an odd number is the strong test. -/
theorem isStrong_iff {n b twos odd : Nat} (hn : 1 < n)
    (hsplit : splitTwos 64 (n - 1) = (twos + 1, odd)) :
    isStrong n b = true ↔ IsStrongTo n b (twos + 1) odd := by
  have hmod : b ^ odd % n ≡ b ^ odd [MOD n] := Nat.mod_modEq _ _
  have hone : b ^ odd % n = 1 ↔ b ^ odd ≡ 1 [MOD n] := by
    rw [Nat.ModEq, Nat.mod_eq_of_lt hn]
  have hminus : b ^ odd % n = n - 1 ↔ b ^ odd ≡ n - 1 [MOD n] := by
    rw [Nat.ModEq, Nat.mod_eq_of_lt (by omega : n - 1 < n)]
  unfold isStrong
  rw [hsplit, isStrongTo_succ_iff]
  simp only [power_eq (by omega : 0 < n), Bool.or_eq_true, beq_iff_eq, squaresToMinusOne_iff hn,
    or_assoc, hone, hminus]
  refine or_congr_right (or_congr_right (exists_congr fun j => and_congr_right fun _ => ?_))
  exact ⟨(hmod.pow _).symm.trans, (hmod.pow _).trans⟩

/-! ## The verdict -/

/-- A prime of one word, of any size, is accepted. -/
theorem isPrime_of_prime {n : Nat} (hn : n.Prime) : isPrime n = true := by
  have htwo := hn.two_le
  unfold isPrime
  rw [if_neg (by omega)]
  split
  · next heven =>
      rcases hn.eq_two_or_odd with h | h
      · rw [h]
        rfl
      · omega
  · split
    · rw [List.all_eq_true]
      intro p hp
      -- a divisor up to the root would be the prime itself
      have hroot := List.mem_takeWhile_imp hp
      rw [decide_eq_true_iff] at hroot
      have hbase := pos_of_mem ((List.takeWhile_sublist _).subset hp)
      rw [bne_iff_ne]
      intro hzero
      rcases hn.eq_one_or_self_of_dvd p (Nat.dvd_of_mod_eq_zero hzero) with h | h
      · omega
      · rw [h] at hroot
        nlinarith
    · next hlarge =>
        rw [List.all_eq_true]
        intro b hb
        have hsmall : 0 < b ∧ b ≤ 37 := by
          revert hb
          exact (by decide : ∀ b ∈ bases, 0 < b ∧ b ≤ 37) b
        have hbound : 37 < trialBound := by decide
        obtain ⟨twos, odd, hsplit⟩ := exists_splitTwos 63 (by omega : (n - 1) % 2 = 0)
        have hmul := splitTwos_mul 64 (n - 1)
        rw [hsplit] at hmul
        refine (isStrong_iff (by omega) hsplit).mpr (isStrongTo_of_prime hn ?_ hmul)
        exact Nat.not_dvd_of_pos_of_lt hsmall.1 (by omega)

private theorem mem_takeWhile_of_sorted {q : Nat → Bool} (hq : ∀ {a b}, a < b → q b → q a)
    {ps : List Nat} (hsorted : ps.Pairwise (· < ·)) {p : Nat} (hp : p ∈ ps) (h : q p) :
    p ∈ ps.takeWhile q := by
  induction ps with
  | nil => simp at hp
  | cons x xs ih =>
      rw [List.pairwise_cons] at hsorted
      rcases List.mem_cons.mp hp with rfl | hmem
      · rw [List.takeWhile_cons, if_pos h]
        exact List.mem_cons_self
      · rw [List.takeWhile_cons, if_pos (hq (hsorted.1 p hmem) h)]
        exact List.mem_cons_of_mem _ (ih hsorted.2 hmem)

/-- Below the square of the largest base prime the verdict is exact. -/
theorem isPrime_iff {n : Nat} (hn : n < trialBound) : isPrime n = true ↔ n.Prime := by
  refine ⟨?_, isPrime_of_prime⟩
  intro h
  rw [isPrime, if_pos hn] at h
  split at h
  · simp at h
  · split at h
    · rw [beq_iff_eq.mp h]
      exact Nat.prime_two
    · rw [List.all_eq_true] at h
      by_contra hcomposite
      obtain ⟨p, hp, hroot, hdvd⟩ := exists_factor (by omega) (by omega) hn hcomposite
      have htested : p ∈ primes.takeWhile fun p => p * p ≤ n := by
        refine mem_takeWhile_of_sorted ?_ primes_sorted hp (decide_eq_true hroot)
        intro a b hab hb
        rw [decide_eq_true_iff] at hb ⊢
        exact (Nat.mul_le_mul hab.le hab.le).trans hb
      exact bne_iff_ne.mp (h p htested) (Nat.mod_eq_zero_of_dvd hdvd)

/-- Two is the only even number that is accepted. -/
theorem isPrime_even {n : Nat} (heven : n % 2 = 0) : isPrime n = true ↔ n = 2 := by
  rw [isPrime]
  by_cases htwo : n < 2
  · rw [if_pos htwo]
    exact ⟨fun h => absurd h Bool.false_ne_true, fun h => absurd htwo (by omega)⟩
  · rw [if_neg htwo, if_pos heven, beq_iff_eq]

/-- From the square of the largest base prime on, the verdict on an odd number of
one word is that of the strong tests. -/
theorem isPrime_odd {n twos odd : Nat} (hparity : n % 2 = 1) (hlarge : trialBound ≤ n)
    (hword : n ≤ 2 ^ 64) (hodd : odd % 2 = 1) (hsplit : 2 ^ twos * odd = n - 1) :
    isPrime n = true ↔ ∀ b ∈ bases, IsStrongTo n b twos odd := by
  have htwo : 2 ≤ trialBound := by decide
  rw [isPrime, if_neg (by omega), if_neg (by omega), if_neg (not_lt.mpr hlarge), List.all_eq_true]
  have hparts := splitTwos_eq 64 hodd hsplit (by omega)
  cases twos with
  | zero =>
      rw [Nat.pow_zero, Nat.one_mul] at hsplit
      omega
  | succ twos => exact forall₂_congr fun b _ => isStrong_iff (by omega) hparts

end CryptoPrimes.SingleWord
