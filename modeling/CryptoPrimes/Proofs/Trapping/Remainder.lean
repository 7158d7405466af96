import CryptoPrimes.Proofs.Limbs.Division
import CryptoPrimes.Proofs.Trapping.Limbs
import CryptoPrimes.Trapping.Remainder

/-!
# Reduction by a word does not trap

A remainder is below its modulus.  By halves the modulus, and so the remainder, is
below `2 ^ w.halfBits`, which leaves the upper half of a word free for the shift; by
whole words the double word of a remainder `r` and a word is below `m` times the
radix, so that its quotient by `m` fits a word.

With that each step is the step of Horner's rule on values, and the four ways to a
remainder, two paths, the division and the plain routine, end alike
(`reducesTo_remWord`).
-/

namespace CryptoPrimes.Trapping

open Limbs

variable {w : Width} {a : Limbs w} {m : Word w}

theorem toNat_pos (hm : m ≠ 0) : 0 < m.toNat := Nat.pos_of_ne_zero (Word.toNat_ne_zero hm)

/-! ## By halves -/

theorem wordRemainder_eq (x : Word w) (hm : m ≠ 0) : wordRemainder x m = .ok (x % m) := by
  rw [wordRemainder, Checked.require_of hm]
  rfl

/-- The upper half of a word is free for a shift. -/
theorem halfUp_eq {x : Word w} (hx : x.toNat < 2 ^ w.halfBits) :
    halfUp x = .ok (x <<< w.halfBits) := by
  have hsquare : 2 ^ w.bits = 2 ^ w.halfBits * 2 ^ w.halfBits := by
    rw [w.bits_eq_halfBits, Nat.two_mul, Nat.pow_add]
  have hfits : x.toNat * 2 ^ w.halfBits < 2 ^ w.bits := by
    rw [hsquare]
    exact Nat.mul_lt_mul_of_pos_right hx (Nat.two_pow_pos _)
  rw [halfUp, Checked.require_of hfits]
  rfl

theorem takeHalves_eq (hm : m ≠ 0) (hhalf : m ≤ Word.halfMask) (x : Word w) {r : Word w}
    (hr : r.toNat < m.toNat) : takeHalves m x r = .ok (halfStep m x r) := by
  have hmodulus := (Word.le_halfMask_iff m).mp hhalf
  have hmiddle : (((r <<< w.halfBits) ||| (x >>> w.halfBits)) % m).toNat < m.toNat := by
    rw [Word.toNat_mod]
    exact Nat.mod_lt _ (toNat_pos hm)
  rw [takeHalves, halfUp_eq (hr.trans hmodulus), Checked.ok_bind, wordRemainder_eq _ hm,
    Checked.ok_bind, halfUp_eq (hmiddle.trans hmodulus), Checked.ok_bind, wordRemainder_eq _ hm]
  rfl

theorem modByHalves_eq (hm : m ≠ 0) (hhalf : m ≤ Word.halfMask) (a : Limbs w) :
    modByHalves m a = .ok (remHalves a m) := by
  induction a with
  | nil => rfl
  | cons x xs ih =>
      have hr : (remHalves xs m).toNat < m.toNat := by
        rw [toNat_remHalves xs (toNat_pos hm) hhalf]
        exact Nat.mod_lt _ (toNat_pos hm)
      rw [modByHalves, ih, Checked.ok_bind, takeHalves_eq hm hhalf x hr]
      rfl

/-! ## By whole words -/

/-- The double word of a remainder and a word. -/
theorem takeWord_lt {r m : Nat} (hm : m < 2 ^ w.bits) (hr : r < m) (x : Word w) :
    r * 2 ^ w.bits + x.toNat < 2 ^ w.bits * 2 ^ w.bits :=
  double_lt (hr.trans hm) x.toNat_lt

theorem modByWhole_eq (hm : m ≠ 0) (a : Limbs w) :
    modByWhole m a = .ok (val a % m.toNat) := by
  induction a with
  | nil => rfl
  | cons x xs ih =>
      have hpos := toNat_pos hm
      rw [modByWhole, ih, Checked.ok_bind,
        doubleWord_eq (takeWord_lt m.toNat_lt (Nat.mod_lt _ hpos) x), Checked.ok_bind,
        remainder_eq _ hpos.ne', mod_mul_add_mod, val_cons, Nat.mul_comm (val xs),
        Nat.add_comm (2 ^ w.bits * val xs)]

/-- Each quotient word fits a word, and what was divided comes back from quotient
and remainder. -/
theorem quotientWords_spec (hm : m ≠ 0) (a : Limbs w) :
    ∃ q r, quotientWords m a = .ok (q, r) ∧ q.length = a.length ∧
      r + m.toNat * val q = val a ∧ r < m.toNat := by
  induction a with
  | nil => exact ⟨[], 0, rfl, rfl, rfl, toNat_pos hm⟩
  | cons x xs ih =>
      obtain ⟨qs, r, hrun, hlength, hvalue, hr⟩ := ih
      have hpos := toNat_pos hm
      have hfits : (r * 2 ^ w.bits + x.toNat) / m.toNat < 2 ^ w.bits := by
        apply Nat.div_lt_of_lt_mul
        have hx := x.toNat_lt
        calc r * 2 ^ w.bits + x.toNat < (r + 1) * 2 ^ w.bits := by rw [Nat.add_mul]; omega
          _ ≤ m.toNat * 2 ^ w.bits := Nat.mul_le_mul_right _ hr
      have hword := Nat.div_add_mod (r * 2 ^ w.bits + x.toNat) m.toNat
      have hrest := Nat.mod_lt (r * 2 ^ w.bits + x.toNat) hpos
      refine ⟨Word.ofNat ((r * 2 ^ w.bits + x.toNat) / m.toNat) :: qs,
        (r * 2 ^ w.bits + x.toNat) % m.toNat, ?_, congrArg Nat.succ hlength, ?_, hrest⟩
      · have hquotient : wholeQuotient (r * 2 ^ w.bits + x.toNat) m.toNat =
            .ok ((r * 2 ^ w.bits + x.toNat) / m.toNat) := by
          rw [wholeQuotient, Checked.require_of hpos.ne']
          rfl
        rw [quotientWords, hrun, Checked.ok_bind]
        dsimp only
        rw [doubleWord_eq (takeWord_lt m.toNat_lt hr x), Checked.ok_bind, hquotient,
          Checked.ok_bind, singleWord_eq hfits, Checked.ok_bind, remainder_eq _ hpos.ne']
        rfl
      · rw [val_cons, val_cons, Word.toNat_ofNat_of_lt hfits, ← hvalue]
        generalize (r * 2 ^ w.bits + x.toNat) / m.toNat = d at *
        generalize (r * 2 ^ w.bits + x.toNat) % m.toNat = s at *
        calc s + m.toNat * (d + 2 ^ w.bits * val qs)
            = m.toNat * d + s + 2 ^ w.bits * (m.toNat * val qs) := by ring
          _ = x.toNat + 2 ^ w.bits * (r + m.toNat * val qs) := by rw [hword]; ring

/-! ## All ways together -/

/-- The remainder `r` of `a` by a word: what it is, and every way that ends with
it.  The quotient takes the place of the dividend. -/
structure ReducesTo (a : Limbs w) (m r : Word w) : Prop where
  value : r.toNat = val a % m.toNat
  byHalves : m.toNat < 2 ^ w.halfBits → modByHalves m a = .ok r
  byWhole : modByWhole m a = .ok r.toNat
  byWord : modByWord a m = .ok r
  plain : modWord a m = .ok r
  division : ∃ q : Limbs w, q.length = a.length ∧ val q = val a / m.toNat ∧
    divByWord a m = .ok (q, r) ∧ divWordChecked a m = .ok (q, r)

theorem modByWord_eq (hm : m ≠ 0) (a : Limbs w) : modByWord a m = .ok (remWord a m) := by
  have hvalue := toNat_remWord a (toNat_pos hm)
  have hfits : val a % m.toNat < 2 ^ w.bits := (Nat.mod_lt _ (toNat_pos hm)).trans m.toNat_lt
  rw [modByWord, Checked.require_of hm, Checked.ok_bind]
  by_cases hhalf : m ≤ Word.halfMask
  · rw [if_pos hhalf, modByHalves_eq hm hhalf, remWord, if_pos hhalf]
  · rw [if_neg hhalf, modByWhole_eq hm, Checked.ok_bind, singleWord_eq hfits, ← hvalue]
    exact congrArg Except.ok (Word.ext (Word.toNat_ofNat_of_lt (remWord a m).toNat_lt))

theorem divByWord_eq (hm : m ≠ 0) (a : Limbs w) :
    divByWord a m = .ok ((divWord a m).1, remWord a m) := by
  obtain ⟨q, r, hrun, hlength, hvalue, hr⟩ := quotientWords_spec hm a
  obtain ⟨hquot, hrem⟩ := (Nat.div_mod_unique (toNat_pos hm)).mpr ⟨hvalue, hr⟩
  have hfits : r < 2 ^ w.bits := hr.trans m.toNat_lt
  have hwords : q = (divWord a m).1 :=
    val_inj (hlength.trans (length_divWord a m).symm)
      (hquot.symm.trans (divWord_spec a (toNat_pos hm)).1.symm)
  have hword : (Word.ofNat r : Word w) = remWord a m := by
    apply Word.ext
    rw [Word.toNat_ofNat_of_lt hfits, toNat_remWord a (toNat_pos hm), hrem]
  rw [divByWord, Checked.require_of hm, Checked.ok_bind, hrun, Checked.ok_bind]
  dsimp only
  rw [singleWord_eq hfits, Checked.ok_bind, hwords, hword]
  rfl

theorem reducesTo_remWord (hm : m ≠ 0) (a : Limbs w) : ReducesTo a m (remWord a m) := by
  obtain ⟨hquot, hrem⟩ := divWord_spec a (toNat_pos hm)
  have hvalue := toNat_remWord a (toNat_pos hm)
  refine ⟨hvalue, fun hhalf => ?_, ?_, modByWord_eq hm a, ?_, (divWord a m).1,
    length_divWord a m, hquot, divByWord_eq hm a, ?_⟩
  · have hle := (Word.le_halfMask_iff m).mpr hhalf
    rw [modByHalves_eq hm hle, remWord, if_pos hle]
  · rw [modByWhole_eq hm, hvalue]
  · rw [modWord, Checked.require_of hm]
    rfl
  · rw [divWordChecked, Checked.require_of hm, ← hrem]
    rfl

end CryptoPrimes.Trapping
