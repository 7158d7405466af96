import Mathlib.Data.Nat.ModEq
import CryptoPrimes.Proofs.Limbs.Value

/-!
# Remainders by a word

Horner's rule from the top word down keeps the remainder of the words read so
far.  The step by half words and the step by whole words both take a remainder
`r` to the remainder of `r * 2 ^ w.bits + x`, so the two paths agree
(`toNat_remWord`), and the division ends with that remainder too (`divWord_spec`).
-/

namespace CryptoPrimes.Word

variable {w : Width}

theorem toNat_mod (x y : Word w) : (x % y).toNat = x.toNat % y.toNat := by
  show (truncate (x.raw % y.raw) : Word w).toNat = _
  rw [toNat_truncate, UInt64.toNat_mod]
  exact Nat.mod_eq_of_lt (lt_of_le_of_lt (Nat.mod_le _ _) x.toNat_lt)

theorem le_halfMask_iff (x : Word w) : x ≤ halfMask ↔ x.toNat < 2 ^ w.halfBits := by
  rw [le_iff_toNat_le, toNat_halfMask]
  have := Nat.two_pow_pos w.halfBits
  omega

end CryptoPrimes.Word

namespace CryptoPrimes.Limbs

variable {w : Width}

/-- A step may start from a remainder in place of the number itself. -/
theorem mod_mul_add_mod (r b x m : Nat) : (r % m * b + x) % m = (r * b + x) % m :=
  (((Nat.mod_modEq r m).mul_right b).add_right x)

/-- One word by halves. -/
theorem toNat_halfStep {m r : Word w} (x : Word w) (hm : m ≤ Word.halfMask)
    (hr : r.toNat < m.toNat) :
    (halfStep m x r).toNat = (r.toNat * 2 ^ w.bits + x.toNat) % m.toNat := by
  rw [Word.le_halfMask_iff] at hm
  have hhalf := Word.halfBits_lt w
  have hbits := w.bits_eq_halfBits
  have hrest : w.bits - w.halfBits = w.halfBits := by omega
  have hsquare : 2 ^ w.bits = 2 ^ w.halfBits * 2 ^ w.halfBits := by
    rw [← Nat.pow_add]
    congr 1
    omega
  have hpos : 0 < m.toNat := by omega
  have hhigh : (x >>> w.halfBits).toNat = x.toNat / 2 ^ w.halfBits :=
    Word.toNat_shiftRight x (Word.bits_lt_register w hhalf)
  have hhighlt : x.toNat / 2 ^ w.halfBits < 2 ^ w.halfBits := by
    rw [Nat.div_lt_iff_lt_mul (Nat.two_pow_pos _), ← hsquare]
    exact x.toNat_lt
  have hlow : (x &&& Word.halfMask).toNat = x.toNat % 2 ^ w.halfBits := by
    rw [Word.toNat_and, Word.toNat_halfMask, Nat.and_two_pow_sub_one_eq_mod]
  have hfirst : (((r <<< w.halfBits) ||| (x >>> w.halfBits)) % m).toNat =
      (r.toNat * 2 ^ w.halfBits + x.toNat / 2 ^ w.halfBits) % m.toNat := by
    rw [Word.toNat_mod, Word.toNat_shiftLeft_or hhalf (by rw [hhigh]; exact hhighlt), hhigh, hrest,
      Nat.mod_eq_of_lt (hr.trans hm)]
  have hfirstlt := Nat.mod_lt (r.toNat * 2 ^ w.halfBits + x.toNat / 2 ^ w.halfBits) hpos
  unfold halfStep
  rw [Word.toNat_mod, Word.toNat_shiftLeft_or hhalf (by rw [hlow]; exact Nat.mod_lt _ (Nat.two_pow_pos _)),
    hlow, hrest, hfirst, Nat.mod_eq_of_lt (hfirstlt.trans hm), mod_mul_add_mod]
  congr 1
  calc (r.toNat * 2 ^ w.halfBits + x.toNat / 2 ^ w.halfBits) * 2 ^ w.halfBits +
        x.toNat % 2 ^ w.halfBits
      = r.toNat * (2 ^ w.halfBits * 2 ^ w.halfBits) +
          (2 ^ w.halfBits * (x.toNat / 2 ^ w.halfBits) + x.toNat % 2 ^ w.halfBits) := by ring
    _ = r.toNat * 2 ^ w.bits + x.toNat := by rw [Nat.div_add_mod, hsquare]

/-- One whole word. -/
theorem toNat_wholeStep {m r : Word w} (x : Word w) (hr : r.toNat < m.toNat) :
    (Word.divWide r x m).2.toNat = (r.toNat * 2 ^ w.bits + x.toNat) % m.toNat := by
  have h := Word.toNat_divWide x hr
  rw [← h.1, Nat.mul_comm, Nat.mul_add_mod, Nat.mod_eq_of_lt h.2]

/-- Horner's rule: a step that takes remainders to remainders computes the
remainder of the whole number. -/
private theorem foldr_remainder {m : Word w} (hm : 0 < m.toNat) (step : Word w → Word w → Word w)
    (hstep : ∀ x r, r.toNat < m.toNat →
      (step x r).toNat = (r.toNat * 2 ^ w.bits + x.toNat) % m.toNat) (a : Limbs w) :
    (a.foldr step 0).toNat = val a % m.toNat := by
  induction a with
  | nil => simp
  | cons x xs ih =>
      have hlt : (xs.foldr step 0).toNat < m.toNat := by
        rw [ih]
        exact Nat.mod_lt _ hm
      rw [List.foldr_cons, hstep x _ hlt, ih, mod_mul_add_mod, val_cons]
      congr 1
      ring

theorem toNat_remHalves (a : Limbs w) {m : Word w} (hm : 0 < m.toNat) (hhalf : m ≤ Word.halfMask) :
    (remHalves a m).toNat = val a % m.toNat :=
  foldr_remainder hm _ (fun x _ hr => toNat_halfStep x hhalf hr) a

/-- The remainder by a nonzero word, on either path. -/
theorem toNat_remWord (a : Limbs w) {m : Word w} (hm : 0 < m.toNat) :
    (remWord a m).toNat = val a % m.toNat := by
  unfold remWord
  split
  · next hhalf => exact toNat_remHalves a hm hhalf
  · exact foldr_remainder hm _ (fun x r hr => toNat_wholeStep x hr) a

theorem remWord_eq_zero_iff (a : Limbs w) {m : Word w} (hm : 0 < m.toNat) :
    remWord a m = 0 ↔ m.toNat ∣ val a := by
  rw [← Word.toNat_inj, toNat_remWord a hm, Word.toNat_zero, Nat.dvd_iff_mod_eq_zero]

/-- The division that keeps the quotient leaves the same remainder. -/
theorem divWord_spec (a : Limbs w) {m : Word w} (hm : 0 < m.toNat) :
    val (divWord a m).1 = val a / m.toNat ∧ (divWord a m).2 = remWord a m := by
  obtain ⟨hvalue, hlt⟩ := val_divWord a hm
  rw [Nat.mul_comm, Nat.add_comm] at hvalue
  obtain ⟨hquot, hrem⟩ := (Nat.div_mod_unique hm).mpr ⟨hvalue, hlt⟩
  exact ⟨hquot.symm, Word.ext (hrem.symm.trans (toNat_remWord a hm).symm)⟩

end CryptoPrimes.Limbs
