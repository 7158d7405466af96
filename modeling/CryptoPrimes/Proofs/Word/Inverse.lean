import Mathlib.Algebra.Ring.Divisibility.Basic
import Mathlib.Data.Int.ModEq
import Mathlib.Data.Nat.Prime.Basic
import Mathlib.Tactic.Ring
import CryptoPrimes.Proofs.Word.Bits
import CryptoPrimes.Word.Bits

/-!
# Newton's iteration for the negated inverse

Word operators are ring operations modulo `2 ^ w.bits`.  Read in the integers, a
Newton step squares the error `x * inverse - 1`, so the number of correct low
bits doubles: `precision_repeat` counts three bits at the start and twice as
many after each step.  As soon as this passes the width, the negation is the word
that times `x` gives minus one (`neg_repeat_modEq`).

An odd word can be cancelled modulo the radix, so there is no second such word
(`eq_of_mul_modEq`), and steps beyond the sixth change nothing.
-/

namespace CryptoPrimes.Word

variable {w : Width}

/-! ## Word operators modulo the radix -/

theorem toNat_neg (x : Word w) : (-x).toNat = (2 ^ w.bits - x.toNat) % 2 ^ w.bits := by
  show (truncate (0 - x.raw) : Word w).toNat = _
  rw [toNat_truncate, UInt64.toNat_sub, mod_register]
  have hx := x.toNat_lt
  show (2 ^ 64 - x.toNat + 0) % 2 ^ w.bits = _
  cases w <;> simp only [Width.bits] at * <;> omega

theorem mul_modEq (x y : Word w) :
    ((x * y).toNat : Int) ≡ x.toNat * y.toNat [ZMOD 2 ^ w.bits] := by
  rw [toNat_mul]
  push_cast
  exact Int.mod_modEq _ _

theorem sub_modEq (x y : Word w) :
    ((x - y).toNat : Int) ≡ x.toNat - y.toNat [ZMOD 2 ^ w.bits] := by
  have hy := y.toNat_lt
  rw [toNat_sub]
  push_cast [Nat.cast_sub hy.le]
  apply (Int.mod_modEq _ _).trans
  refine (Int.modEq_iff_dvd.mpr ⟨-1, ?_⟩)
  ring

theorem neg_modEq (x : Word w) : ((-x).toNat : Int) ≡ -x.toNat [ZMOD 2 ^ w.bits] := by
  have hx := x.toNat_lt
  rw [toNat_neg]
  push_cast [Nat.cast_sub hx.le]
  apply (Int.mod_modEq _ _).trans
  refine (Int.modEq_iff_dvd.mpr ⟨-1, ?_⟩)
  ring

/-! ## Precision -/

/-- The error of a step is the negated square of the error before it. -/
theorem newtonStep_error (x inverse : Word w) :
    (x.toNat * (newtonStep x inverse).toNat - 1 : Int) ≡
      -(x.toNat * inverse.toNat - 1) ^ 2 [ZMOD 2 ^ w.bits] := by
  have hinner : ((2 - x * inverse).toNat : Int) ≡ 2 - x.toNat * inverse.toNat
      [ZMOD 2 ^ w.bits] := by
    have h := sub_modEq 2 (x * inverse)
    rw [toNat_two] at h
    exact h.trans ((mul_modEq x inverse).sub_left 2)
  have hstep : ((newtonStep x inverse).toNat : Int) ≡
      inverse.toNat * (2 - x.toNat * inverse.toNat) [ZMOD 2 ^ w.bits] :=
    (mul_modEq inverse _).trans (hinner.mul_left _)
  calc (x.toNat * (newtonStep x inverse).toNat - 1 : Int)
      ≡ x.toNat * (inverse.toNat * (2 - x.toNat * inverse.toNat)) - 1 [ZMOD 2 ^ w.bits] :=
        (hstep.mul_left (x.toNat : Int)).sub_right 1
    _ = -(x.toNat * inverse.toNat - 1) ^ 2 := by ring

/-- Correct low bits double, up to the width. -/
theorem precision_step {x inverse : Word w} {k : Nat}
    (hk : (2 ^ k : Int) ∣ x.toNat * inverse.toNat - 1) :
    (2 ^ min (2 * k) w.bits : Int) ∣ x.toNat * (newtonStep x inverse).toNat - 1 := by
  have herror := newtonStep_error x inverse
  have hsquare : (2 ^ min (2 * k) w.bits : Int) ∣ (x.toNat * inverse.toNat - 1) ^ 2 := by
    apply (pow_dvd_pow 2 (min_le_left _ _)).trans
    rw [Nat.mul_comm, pow_mul]
    exact pow_dvd_pow_of_dvd hk 2
  have hradix : (2 ^ min (2 * k) w.bits : Int) ∣ 2 ^ w.bits := pow_dvd_pow 2 (min_le_right _ _)
  have hdiff := hradix.trans (Int.modEq_iff_dvd.mp herror)
  have hsum := dvd_sub (dvd_neg.mpr hsquare) hdiff
  rwa [sub_sub_cancel] at hsum

/-- An odd word is its own inverse modulo 8. -/
theorem eight_dvd_square {x : Nat} (hx : x % 2 = 1) : (8 : Int) ∣ x * x - 1 := by
  have hcases : x % 8 = 1 ∨ x % 8 = 3 ∨ x % 8 = 5 ∨ x % 8 = 7 := by omega
  have hsquare : x * x % 8 = 1 := by
    rcases hcases with h | h | h | h <;> simp [Nat.mul_mod, h]
  have hle : 1 ≤ x * x := by
    by_contra hcontra
    rw [show x * x = 0 by omega] at hsquare
    exact absurd hsquare (by decide)
  have hnat : 8 ∣ x * x - 1 := (Nat.modEq_iff_dvd' hle).mp hsquare.symm
  exact_mod_cast (Int.natCast_dvd_natCast.mpr hnat)

theorem precision_repeat {x : Word w} (hx : x.toNat % 2 = 1) (n : Nat) :
    (2 ^ min (3 * 2 ^ n) w.bits : Int) ∣
      x.toNat * (Nat.repeat (newtonStep x) n x).toNat - 1 := by
  induction n with
  | zero =>
      have hthree : min (3 * 2 ^ 0) w.bits = 3 := by cases w <;> rfl
      rw [hthree]
      exact eight_dvd_square hx
  | succ n ih =>
      refine (pow_dvd_pow 2 ?_).trans (precision_step ih)
      rw [Nat.pow_succ]
      omega

/-! ## The inverse -/

/-- Once the correct bits pass the width, the negated iterate times the word is minus
one. -/
theorem neg_repeat_modEq {x : Word w} (hx : x.toNat % 2 = 1) {n : Nat}
    (hn : w.bits ≤ 3 * 2 ^ n) :
    ((-(Nat.repeat (newtonStep x) n x)).toNat * x.toNat : Int) ≡ -1 [ZMOD 2 ^ w.bits] := by
  have hprecision := precision_repeat hx n
  rw [Nat.min_eq_right hn] at hprecision
  generalize Nat.repeat (newtonStep x) n x = inverse at *
  have hinverse : (x.toNat * inverse.toNat : Int) ≡ 1 [ZMOD 2 ^ w.bits] :=
    (Int.modEq_iff_dvd.mpr hprecision).symm
  calc ((-inverse).toNat * x.toNat : Int)
      ≡ -inverse.toNat * x.toNat [ZMOD 2 ^ w.bits] := (neg_modEq inverse).mul_right _
    _ = -(x.toNat * inverse.toNat) := by ring
    _ ≡ -1 [ZMOD 2 ^ w.bits] := hinverse.neg

/-- Six steps are more than enough at either width. -/
theorem bits_le_precision_six (w : Width) : w.bits ≤ 3 * 2 ^ 6 := by
  cases w <;> decide

theorem negInverse_modEq {x : Word w} (hx : x.toNat % 2 = 1) :
    (x.negInverse.toNat * x.toNat : Int) ≡ -1 [ZMOD 2 ^ w.bits] :=
  neg_repeat_modEq hx (bits_le_precision_six w)

/-- The negated inverse of an odd word: times the word it is minus one. -/
theorem negInverse_mul {x : Word w} (hx : x.toNat % 2 = 1) :
    (x.negInverse.toNat * x.toNat + 1) % 2 ^ w.bits = 0 := by
  have hsum := (negInverse_modEq hx).add_right 1
  rw [neg_add_cancel, Int.modEq_zero_iff_dvd] at hsum
  exact Nat.mod_eq_zero_of_dvd (by exact_mod_cast hsum)

/-- Two words with the same product by an odd word are the same. -/
theorem eq_of_mul_modEq {x u v : Word w} (hx : x.toNat % 2 = 1)
    (h : (u.toNat * x.toNat : Int) ≡ v.toNat * x.toNat [ZMOD 2 ^ w.bits]) : u = v := by
  have hcoprime : Nat.gcd (2 ^ w.bits) x.toNat = 1 :=
    Nat.Coprime.pow_left _ (Nat.coprime_two_left.mpr (Nat.odd_iff.mpr hx))
  have hnat : u.toNat * x.toNat ≡ v.toNat * x.toNat [MOD 2 ^ w.bits] := by
    apply Int.natCast_modEq_iff.mp
    push_cast
    exact h
  have hcancel := Nat.ModEq.cancel_right_of_coprime hcoprime hnat
  exact ext (Nat.ModEq.eq_of_lt_of_lt hcancel u.toNat_lt v.toNat_lt)

/-- What Newton's iteration from an odd word `x` arrives at, as the word `v`: the one
word that times `x` is minus one. -/
structure IsNewtonLimit (x v : Word w) : Prop where
  checked : x.negInverse? = .ok v
  /-- Minus one has all bits set. -/
  product : v * x = allOnes
  only : ∀ u : Word w, (u.toNat * x.toNat : Int) ≡ -1 [ZMOD 2 ^ w.bits] ↔ u = v
  doubling : ∀ n, (x.toNat * (Nat.repeat (newtonStep x) n x).toNat : Int) ≡ 1
    [ZMOD 2 ^ min (3 * 2 ^ n) w.bits]
  settled : ∀ n, 6 ≤ n → -(Nat.repeat (newtonStep x) n x) = v

theorem toNat_allOnes : (allOnes : Word w).toNat = 2 ^ w.bits - 1 := by
  cases w <;> rfl

/-- Six steps from any odd word itself end at its negated inverse, of which there is
one. -/
theorem negInverse_unique (x : Word w) (hx : x.isOdd = true) : IsNewtonLimit x x.negInverse := by
  have hodd := (isOdd_iff x).mp hx
  have hlimit := negInverse_modEq hodd
  have honly (u : Word w) :
      (u.toNat * x.toNat : Int) ≡ -1 [ZMOD 2 ^ w.bits] ↔ u = x.negInverse := by
    constructor
    · intro hu
      exact eq_of_mul_modEq hodd (hu.trans hlimit.symm)
    · rintro rfl
      exact hlimit
  refine ⟨?_, ?_, honly, ?_, ?_⟩
  · rw [negInverse?, Checked.require_of hx]
    rfl
  · ext
    have hminus : x.negInverse.toNat * x.toNat ≡ 2 ^ w.bits - 1 [MOD 2 ^ w.bits] := by
      apply Nat.ModEq.add_right_cancel' 1
      rw [Nat.sub_add_cancel (Nat.two_pow_pos _)]
      exact (negInverse_mul hodd).trans (Nat.mod_self _).symm
    rw [toNat_mul, toNat_allOnes]
    exact Nat.mod_eq_of_modEq hminus (Nat.sub_lt (Nat.two_pow_pos _) Nat.one_pos)
  · intro n
    exact (Int.modEq_iff_dvd.mpr (precision_repeat hodd n)).symm
  · intro n hn
    refine (honly _).mp (neg_repeat_modEq hodd ?_)
    calc w.bits ≤ 3 * 2 ^ 6 := bits_le_precision_six w
      _ ≤ 3 * 2 ^ n := Nat.mul_le_mul_left 3 (Nat.pow_le_pow_right (by decide) hn)

/-- Three has the negated inverse `0x55…55`, as three times that has all bits set. -/
theorem negInverse_unique_three :
    (3 : Word .w64).isOdd = true ∧ negInverse? (3 : Word .w64) = .ok 0x5555555555555555 := by
  have hodd : (3 : Word .w64).isOdd = true := rfl
  have h := negInverse_unique (3 : Word .w64) hodd
  have hthird : (0x5555555555555555 : Word .w64) = negInverse 3 := (h.only _).mp (by decide)
  exact ⟨hodd, hthird ▸ h.checked⟩

end CryptoPrimes.Word
