import CryptoPrimes.Limbs.Basic
import CryptoPrimes.Proofs.Limbs.Value
import CryptoPrimes.Proofs.Word.Inverse

/-!
# Choices without a branch

Masking with all bits or none is a choice after all: `choose` is an `if` on the
lowest bit (`choose_eq`).
-/

namespace CryptoPrimes.Word

variable {w : Width}

theorem toNat_maskFromBit (x : Word w) :
    x.maskFromBit.toNat = if x.isOdd then 2 ^ w.bits - 1 else 0 := by
  have hradix := two_le_radix w
  unfold maskFromBit
  rw [toNat_neg, toNat_and, toNat_one, Nat.and_one_is_mod]
  split
  · next h =>
      rw [(isOdd_iff x).mp h]
      exact Nat.mod_eq_of_lt (by omega)
  · next h =>
      have heven : x.toNat % 2 = 0 := by
        have := mt (isOdd_iff x).mpr h
        omega
      rw [heven, Nat.sub_zero, Nat.mod_self]

/-- A mask keeps all of a word or nothing. -/
theorem and_maskFromBit (y bit : Word w) :
    y &&& bit.maskFromBit = if bit.isOdd then y else 0 := by
  have hmask := toNat_maskFromBit bit
  split at hmask
  · next h =>
      rw [if_pos h, ← toNat_inj, toNat_and, hmask, Nat.and_two_pow_sub_one_eq_mod,
        Nat.mod_eq_of_lt y.toNat_lt]
  · next h => rw [if_neg h, ← toNat_inj, toNat_and, hmask, Nat.and_zero, toNat_zero]

theorem isOdd_ofBool (flag : Bool) : (ofBool flag : Word w).isOdd = flag := by
  rw [Bool.eq_iff_iff, isOdd_iff, toNat_ofBool]
  cases flag <;> simp

/-- The lowest bit of a flag masked by a complement. -/
theorem isOdd_ofBool_and_complement (flag : Bool) (x : Word w) :
    (ofBool flag &&& ~~~x).isOdd = (flag && !x.isOdd) := by
  have hx := x.toNat_lt
  have heven : 2 ^ w.bits % 2 = 0 := by cases w <;> rfl
  rw [Bool.eq_iff_iff, isOdd_iff, Bool.and_eq_true, Bool.not_eq_true', ← Bool.not_eq_true,
    isOdd_iff, toNat_and, toNat_ofBool, toNat_complement]
  cases flag with
  | false => simp
  | true =>
      rw [Bool.toNat_true, Nat.one_and_eq_mod_two, eq_self_iff_true, true_and]
      omega

end CryptoPrimes.Word

namespace CryptoPrimes.Limbs

variable {w : Width}

theorem blend_maskFromBit (bit x y : Word w) :
    blend bit.maskFromBit x y = if bit.isOdd then x else y := by
  have hmask := Word.toNat_maskFromBit bit
  split at hmask
  · next h =>
      rw [if_pos h, ← Word.toNat_inj, blend, Word.toNat_xor, Word.toNat_and, Word.toNat_xor,
        hmask, Nat.and_comm, Nat.and_two_pow_sub_one_eq_mod,
        Nat.mod_eq_of_lt (Nat.xor_lt_two_pow x.toNat_lt y.toNat_lt), Nat.xor_comm x.toNat,
        ← Nat.xor_assoc, Nat.xor_self, Nat.zero_xor]
  · next h =>
      rw [if_neg h, ← Word.toNat_inj, blend, Word.toNat_xor, Word.toNat_and, hmask,
        Nat.zero_and, Nat.xor_zero]

/-- The first number if the lowest bit is set, the second otherwise. -/
theorem choose_eq (bit : Word w) {a b : Limbs w} (h : a.length = b.length) :
    choose bit a b = if bit.isOdd then a else b := by
  unfold choose
  induction a generalizing b with
  | nil =>
      rw [List.eq_nil_of_length_eq_zero h.symm]
      simp
  | cons x xs ih =>
      cases b with
      | nil => simp at h
      | cons y ys =>
          rw [List.zipWith_cons_cons, blend_maskFromBit, ih (Nat.succ.inj h)]
          split <;> rfl

end CryptoPrimes.Limbs
