import Mathlib.Data.Nat.ModEq
import CryptoPrimes.Modular.Masked
import CryptoPrimes.Proofs.Limbs.Shift

/-!
# Sums, differences and doubles modulo a number

One subtraction of the modulus reduces every number below twice the modulus
(`reduceOnce_spec`), the carry of the sum that produced it included.  Repeated
doubling therefore computes powers of two, which are the two constants of
Montgomery arithmetic (`radixMod_spec`, `radixSquareMod_spec`).
-/

namespace CryptoPrimes.Modular

open Limbs

variable {w : Width}

/-- A number below twice the modulus, whose top bit is in the carry. -/
theorem reduceOnce_spec {m sum : Limbs w} (hlength : sum.length = m.length) {carry : Bool}
    (hlt : val sum + 2 ^ (w.bits * m.length) * carry.toNat < 2 * val m) :
    (reduceOnce m sum carry).length = m.length ∧
      val (reduceOnce m sum carry) =
        (val sum + 2 ^ (w.bits * m.length) * carry.toNat) % val m := by
  have hdiff := val_subBorrow hlength false
  have hdlen := (length_subBorrow hlength false).trans hlength
  have hm := val_lt m
  have hroom : val sum + 2 ^ (w.bits * m.length) * carry.toNat <
      2 ^ (w.bits * m.length) + val m := by omega
  obtain ⟨hborrow, hvalue⟩ := subBorrow_once hlength hroom
  rw [hlength, Bool.toNat_false, Nat.add_zero] at hdiff
  unfold reduceOnce
  rw [addIf]
  generalize subBorrow sum m false = d at *
  rcases Nat.lt_or_ge (val sum + 2 ^ (w.bits * m.length) * carry.toNat) (val m) with
    hsmall | hlarge
  · -- already reduced: the difference borrows and is undone
    obtain ⟨hflag, hcarry⟩ := hborrow.mpr hsmall
    rw [Bool.toNat_eq_zero] at hcarry
    subst hcarry
    rw [Bool.toNat_false, Nat.mul_zero, Nat.add_zero] at hsmall ⊢
    rw [hflag, Bool.toNat_true, Nat.mul_one] at hdiff
    rw [hflag, Bool.not_false, Bool.and_true, if_pos rfl, Nat.mod_eq_of_lt hsmall]
    exact ⟨(length_addCarry hdlen false).trans hdlen,
      val_addCarry_back hdlen hdiff⟩
  · -- the carry covers the borrow, or there is none
    have hflag : ¬ (d.2 && !carry) = true := by
      intro hflag
      rw [Bool.and_eq_true, Bool.not_eq_true'] at hflag
      exact absurd (hborrow.mp ⟨hflag.1, Bool.toNat_eq_zero.mpr hflag.2⟩) (not_lt.mpr hlarge)
    rw [if_neg hflag, hvalue hlarge, Nat.mod_eq_sub_mod hlarge, Nat.mod_eq_of_lt (by omega)]
    exact ⟨hdlen, rfl⟩

/-! ## Sums and differences -/

theorem addMod_spec {a b m : Limbs w} (ha : a.length = m.length) (hb : b.length = m.length)
    (halt : val a < val m) (hblt : val b < val m) :
    (addMod a b m).length = m.length ∧ val (addMod a b m) = (val a + val b) % val m := by
  have hlength := ha.trans hb.symm
  have hsum := val_addCarry hlength false
  rw [ha, Bool.toNat_false, Nat.add_zero] at hsum
  have hlt : val (addCarry a b false).1 +
      2 ^ (w.bits * m.length) * (addCarry a b false).2.toNat < 2 * val m := by omega
  have h := reduceOnce_spec ((length_addCarry hlength false).trans ha) hlt
  rwa [hsum] at h

/-- A difference that borrows has wrapped around, and the modulus leads back. -/
theorem subMod_spec {a b m : Limbs w} (ha : a.length = m.length) (hb : b.length = m.length)
    (halt : val a < val m) (hblt : val b < val m) :
    (subMod a b m).length = m.length ∧
      val (subMod a b m) = (val a + (val m - val b)) % val m := by
  have hlength := ha.trans hb.symm
  have hdiff := val_subBorrow hlength false
  have hdlen := (length_subBorrow hlength false).trans ha
  have hdlt := val_lt (subBorrow a b false).1
  have hm := val_lt m
  rw [hdlen] at hdlt
  rw [ha, Bool.toNat_false, Nat.add_zero] at hdiff
  unfold subMod
  rw [addIf]
  generalize subBorrow a b false = d at *
  cases hborrow : d.2 with
  | true =>
      rw [hborrow, Bool.toNat_true, Nat.mul_one] at hdiff
      rw [if_pos rfl, Nat.mod_eq_of_lt (by omega)]
      exact ⟨(length_addCarry hdlen false).trans hdlen,
        val_addCarry_back hdlen (by omega)⟩
  | false =>
      rw [hborrow, Bool.toNat_false, Nat.mul_zero, Nat.add_zero] at hdiff
      rw [if_neg Bool.false_ne_true, Nat.mod_eq_sub_mod (by omega), Nat.mod_eq_of_lt (by omega)]
      exact ⟨hdlen, by omega⟩

/-! ## Doubles -/

theorem doubleMod_spec {a m : Limbs w} (hlength : a.length = m.length) (ha : val a < val m) :
    (doubleMod a m).length = m.length ∧ val (doubleMod a m) = 2 * val a % val m := by
  obtain ⟨hval, hlow⟩ := val_shlWithin a (n := 1) (by cases w <;> decide)
  rw [hlength, Nat.pow_one, Nat.mul_comm (val a)] at hval
  have hcarry : (shlWithin a 1).2.isOdd.toNat = (shlWithin a 1).2.toNat := by
    cases hodd : (shlWithin a 1).2.isOdd with
    | true =>
        have := (Word.isOdd_iff _).mp hodd
        rw [Bool.toNat_true]
        omega
    | false =>
        have : ¬ (shlWithin a 1).2.toNat % 2 = 1 := by
          rw [← Word.isOdd_iff, hodd]
          simp
        rw [Bool.toNat_false]
        omega
  rw [← hcarry] at hval
  have hsum : (shlWithin a 1).1.length = m.length := (length_shlWithin a 1).trans hlength
  have hlt : val (shlWithin a 1).1 +
      2 ^ (w.bits * m.length) * (shlWithin a 1).2.isOdd.toNat < 2 * val m := by omega
  have h := reduceOnce_spec hsum hlt
  rw [hval] at h
  exact h

/-- Repeated doubling multiplies by a power of two. -/
theorem repeat_doubleMod_spec {a m : Limbs w} (hlength : a.length = m.length)
    (ha : val a < val m) (count : Nat) :
    (Nat.repeat (doubleMod · m) count a).length = m.length ∧
      val (Nat.repeat (doubleMod · m) count a) = 2 ^ count * val a % val m := by
  induction count with
  | zero => exact ⟨hlength, by rw [Nat.pow_zero, Nat.one_mul, Nat.mod_eq_of_lt ha]; rfl⟩
  | succ count ih =>
      obtain ⟨hlen, hval⟩ := ih
      have hlt : val (Nat.repeat (doubleMod · m) count a) < val m := by
        rw [hval]
        exact Nat.mod_lt _ (by omega)
      obtain ⟨hlen', hval'⟩ := doubleMod_spec hlen hlt
      refine ⟨hlen', ?_⟩
      show val (doubleMod (Nat.repeat (doubleMod · m) count a) m) = _
      rw [hval', hval, Nat.mul_mod_mod, Nat.pow_succ']
      congr 1
      ring

/-! ## The constants of Montgomery arithmetic -/

theorem radixMod_spec {m : Limbs w} (hm : 1 < val m) :
    (radixMod m).length = m.length ∧
      val (radixMod m) = 2 ^ (w.bits * m.length) % val m := by
  have hne : m.length ≠ 0 := by
    intro h
    have := val_lt m
    rw [h, Nat.mul_zero, Nat.pow_zero] at this
    omega
  have h := repeat_doubleMod_spec (length_one m.length) (by rw [val_one hne]; exact hm)
    (w.bits * m.length)
  rw [val_one hne, Nat.mul_one] at h
  exact h

theorem radixMod_lt {m : Limbs w} (hm : 1 < val m) : val (radixMod m) < val m := by
  rw [(radixMod_spec hm).2]
  exact Nat.mod_lt _ (by omega)

theorem radixSquareMod_spec {m : Limbs w} (hm : 1 < val m) :
    (radixSquareMod m).length = m.length ∧
      val (radixSquareMod m) =
        2 ^ (w.bits * m.length) * 2 ^ (w.bits * m.length) % val m := by
  have h := repeat_doubleMod_spec (radixMod_spec hm).1 (radixMod_lt hm) (w.bits * m.length)
  rw [(radixMod_spec hm).2, Nat.mul_mod_mod] at h
  exact h

theorem radixSquareMod_lt {m : Limbs w} (hm : 1 < val m) : val (radixSquareMod m) < val m := by
  rw [(radixSquareMod_spec hm).2]
  exact Nat.mod_lt _ (by omega)

end CryptoPrimes.Modular
