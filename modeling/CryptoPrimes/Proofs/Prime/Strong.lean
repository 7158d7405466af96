import Mathlib.FieldTheory.Finite.Basic

/-!
# Strong probable primes

With `n - 1 = 2 ^ twos * odd`, a number `n` is a strong probable prime to the
base `b` if `b ^ odd` is one, or one of its first `twos` repeated squares is
minus one.  A prime is one to every base it does not divide
(`isStrongTo_of_prime`): by Fermat's theorem the last square is one, and modulo
a prime nothing but one and minus one has the square one.
-/

namespace CryptoPrimes.Prime

/-- Whether `n` is a strong probable prime to the base `b`, for `n - 1` written
as `2 ^ twos * odd`. -/
def IsStrongTo (n b twos odd : Nat) : Prop :=
  b ^ odd ≡ 1 [MOD n] ∨ ∃ j < twos, b ^ (2 ^ j * odd) ≡ n - 1 [MOD n]

instance (n b twos odd : Nat) : Decidable (IsStrongTo n b twos odd) :=
  inferInstanceAs (Decidable (_ ∨ _))

/-- The powers as a first one and its successive squares. -/
theorem isStrongTo_succ_iff {n b twos odd : Nat} :
    IsStrongTo n b (twos + 1) odd ↔ b ^ odd ≡ 1 [MOD n] ∨ b ^ odd ≡ n - 1 [MOD n] ∨
      ∃ j < twos, (b ^ odd) ^ 2 ^ (j + 1) ≡ n - 1 [MOD n] := by
  unfold IsStrongTo
  rw [Nat.exists_lt_succ_left, Nat.pow_zero, Nat.one_mul]
  simp only [← Nat.pow_mul, Nat.mul_comm odd]

/-- The modulus less one is minus one. -/
theorem modEq_pred_iff {n : Nat} (hn : 0 < n) (x : Nat) :
    x ≡ n - 1 [MOD n] ↔ (x : ZMod n) = -1 := by
  have hpred : ((n - 1 : Nat) : ZMod n) = -1 := by
    rw [Nat.cast_sub hn, ZMod.natCast_self, Nat.cast_one, zero_sub]
  rw [← ZMod.natCast_eq_natCast_iff, hpred]

/-- Going back from a power that is one, the roots of one are met. -/
theorem pow_one_cases {n : Nat} [Fact n.Prime] {x : ZMod n} {odd : Nat} (twos : Nat)
    (h : x ^ (2 ^ twos * odd) = 1) : x ^ odd = 1 ∨ ∃ j < twos, x ^ (2 ^ j * odd) = -1 := by
  induction twos with
  | zero =>
      left
      rwa [Nat.pow_zero, Nat.one_mul] at h
  | succ twos ih =>
      have hsquare : x ^ (2 ^ twos * odd) * x ^ (2 ^ twos * odd) = 1 := by
        rw [← pow_add, ← h]
        congr 1
        ring
      rcases mul_self_eq_one_iff.mp hsquare with hone | hminus
      · rcases ih hone with hfirst | ⟨j, hj, hminus⟩
        · exact .inl hfirst
        · exact .inr ⟨j, by omega, hminus⟩
      · exact .inr ⟨twos, by omega, hminus⟩

/-- A prime is a strong probable prime to every base it does not divide. -/
theorem isStrongTo_of_prime {n b twos odd : Nat} (hn : n.Prime) (hb : ¬ n ∣ b)
    (hsplit : 2 ^ twos * odd = n - 1) : IsStrongTo n b twos odd := by
  have : Fact n.Prime := ⟨hn⟩
  have hne : (b : ZMod n) ≠ 0 := by
    rwa [Ne, ZMod.natCast_eq_zero_iff]
  have hfermat : (b : ZMod n) ^ (2 ^ twos * odd) = 1 := by
    rw [hsplit]
    exact ZMod.pow_card_sub_one_eq_one hne
  rcases pow_one_cases twos hfermat with hone | ⟨j, hj, hminus⟩
  · left
    rw [← ZMod.natCast_eq_natCast_iff]
    push_cast
    exact hone
  · refine .inr ⟨j, hj, ?_⟩
    rw [modEq_pred_iff hn.pos]
    push_cast
    exact hminus

end CryptoPrimes.Prime
