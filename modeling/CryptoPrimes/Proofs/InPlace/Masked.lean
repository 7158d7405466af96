import CryptoPrimes.InPlace.Masked
import CryptoPrimes.Proofs.InPlace.Modular

/-!
# Corrections under a mask give residues

A mask of one bit widened keeps a word or drops it (`Word.and_maskFromBit`), so
adding under it is a choice between adding and not (`addMasked_eq`).  With that
the routines in place are the ones that branch (`addMod_eq`, `subMod_eq`), and a double
is the same on any numbers, its faults included (`doubleMod_eq`): it is the step
that the constants repeat.

What comes out is stated in integers.  Below the modulus a sum, a difference and
a double are the least residues of the exact ones, and so are the two powers of
two, whether or not something was carried out of the top word on the way.
-/

namespace CryptoPrimes.Word

variable {w : Width}

theorem addCarry_zero (x : Word w) : addCarry x 0 false = (x, false) := by
  have hsum := toNat_addCarry x 0 false
  have hx := x.toNat_lt
  have hlow := (addCarry x 0 false).1.toNat_lt
  rw [toNat_zero, Bool.toNat_false] at hsum
  cases hcarry : (addCarry x 0 false).2 with
  | true =>
      rw [hcarry, Bool.toNat_true] at hsum
      omega
  | false =>
      rw [hcarry, Bool.toNat_false] at hsum
      exact Prod.ext (Word.ext hsum) hcarry

end CryptoPrimes.Word

namespace CryptoPrimes.InPlace

open Limbs CryptoPrimes.Modular Trapping

variable {w : Width} {target a b m : Limbs w}

/-! ## Masks are choices -/

theorem addMasked_of_odd {bit : Word w} (hbit : bit.isOdd = true) (h : a.length = m.length)
    (carry : Bool) : addMasked bit.maskFromBit a m carry = addCarry a m carry := by
  induction a generalizing m carry with
  | nil => cases m <;> rfl
  | cons x xs ih =>
      cases m with
      | nil => simp at h
      | cons y ys =>
          rw [addMasked, Word.and_maskFromBit, if_pos hbit, ih (Nat.succ.inj h)]
          rfl

theorem addMasked_of_even {bit : Word w} (hbit : bit.isOdd = false) (a m : Limbs w) :
    addMasked bit.maskFromBit a m false = (a, false) := by
  induction a generalizing m with
  | nil => cases m <;> rfl
  | cons x xs ih =>
      cases m with
      | nil => rfl
      | cons y ys =>
          rw [addMasked, Word.and_maskFromBit, hbit, if_neg Bool.false_ne_true,
            Word.addCarry_zero, ih]

/-- Adding under a mask adds if the bit is set. -/
theorem addMasked_eq (bit : Word w) (h : a.length = m.length) :
    (addMasked bit.maskFromBit a m false).1 = addIf bit.isOdd a m := by
  cases hbit : bit.isOdd with
  | true => rw [addMasked_of_odd hbit h, addIf, if_pos rfl]
  | false => rw [addMasked_of_even hbit, addIf, if_neg Bool.false_ne_true]

theorem reduceMasked_eq (h : a.length = m.length) (carry : Word w) :
    reduceMasked a m carry = .ok (reduceOnce m a carry.isOdd) := by
  have hdiff : (subBorrow a m false).1.length = m.length := (length_subBorrow h false).trans h
  rw [reduceMasked, sub_eq, Trapping.sub_eq rfl h, Checked.ok_bind]
  dsimp only
  rw [addMasked_eq _ hdiff, Word.isOdd_ofBool_and_complement]
  rfl

theorem reduceMasked_mismatch (h : a.length ≠ m.length) (carry : Word w) :
    reduceMasked a m carry = .error .lengthMismatch := by
  rw [reduceMasked, sub_eq, Limbs.sub, require, if_neg (mt And.right h)]
  rfl

/-! ## The routines are those that branch -/

theorem add_eq (target a b : Limbs w) : add target a b = Limbs.add target.length a b := by
  unfold add Limbs.add
  by_cases h : target.length = a.length ∧ a.length = b.length
  · have hlength : (addCarry a b false).1.length = target.length :=
      (length_addCarry h.2 false).trans h.1.symm
    rw [Checked.require_of h, Checked.ok_bind]
    show (do return (← store target (addCarry a b false).1, _)) = _
    rw [store_eq hlength]
    rfl
  · rw [require, if_neg h]
    rfl

theorem addMod_eq (h : target.length = a.length) : addMod target a b m = addModChecked a b m := by
  rw [addMod, add_eq, Limbs.add, addModChecked]
  by_cases hb : a.length = b.length
  · have hsum : (addCarry a b false).1.length = a.length := length_addCarry hb false
    rw [Checked.require_of ⟨h, hb⟩, Checked.ok_bind]
    show reduceMasked (addCarry a b false).1 m (Word.ofBool (addCarry a b false).2) = _
    by_cases hm : a.length = m.length
    · rw [reduceMasked_eq (hsum.trans hm), Word.isOdd_ofBool, Checked.require_of ⟨hb, hm⟩]
      rfl
    · rw [reduceMasked_mismatch (by rwa [hsum]), require, if_neg (mt And.right hm)]
      rfl
  · rw [require, if_neg (mt And.right hb), require, if_neg (mt And.left hb)]
    rfl

/-- The masked addition checks no length itself: what it walks is as long as the
shorter of its operands. -/
theorem subMod_eq (h : target.length = a.length) (hm : a.length = m.length) :
    subMod target a b m = subModChecked a b m := by
  rw [subMod, sub_eq, Limbs.sub, subModChecked]
  by_cases hb : a.length = b.length
  · have hdiff : (subBorrow a b false).1.length = m.length :=
      (length_subBorrow hb false).trans hm
    rw [Checked.require_of ⟨h, hb⟩, Checked.require_of ⟨hb, hm⟩, Checked.ok_bind]
    show Except.ok (addMasked _ (subBorrow a b false).1 m false).1 = _
    rw [addMasked_eq _ hdiff, Word.isOdd_ofBool]
    rfl
  · rw [require, if_neg (mt And.right hb), require, if_neg (mt And.left hb)]
    rfl

theorem doubleMod_eq (a m : Limbs w) : doubleMod a m = doubleModChecked a m := by
  have hone : 1 < w.bits := by cases w <;> decide
  have hsum : (shlWithin a 1).1.length = a.length := length_shlWithin a 1
  rw [doubleMod, shlCarry, Checked.require_of hone, doubleModChecked]
  show reduceMasked (shlWithin a 1).1 m (shlWithin a 1).2 = _
  by_cases h : a.length = m.length
  · rw [reduceMasked_eq (hsum.trans h), Checked.require_of h]
    rfl
  · rw [reduceMasked_mismatch (by rwa [hsum]), require, if_neg h]
    rfl

/-! ## What a caller gets -/

/-- `c` is the least residue of `x` modulo `m`, in the words of `m`. -/
structure IsResidue (m : Limbs w) (x : Int) (c : Limbs w) : Prop where
  length : c.length = m.length
  value : (val c : Int) = x % val m
  lt : val c < val m

/-- The routine in place and the one on values end with the residue of `x`. -/
def GivesResidue (m : Limbs w) (x : Int) (inPlace plain : Checked (Limbs w)) : Prop :=
  ∃ c, inPlace = .ok c ∧ plain = .ok c ∧ IsResidue m x c

/-- What is promised of the masked routines for a modulus `m`, whose parity and
whose words at the top are free.  The words that are written hold anything. -/
structure MaskedResidues (m : Limbs w) : Prop where
  sum : ∀ target a b : Limbs w, target.length = m.length → a.length = m.length →
    b.length = m.length → val a < val m → val b < val m →
    GivesResidue m (val a + val b) (addMod target a b m) (addModChecked a b m)
  sumAssign : ∀ a b : Limbs w, a.length = m.length → b.length = m.length →
    val a < val m → val b < val m →
    GivesResidue m (val a + val b) (addModAssign a b m) (addModChecked a b m)
  difference : ∀ target a b : Limbs w, target.length = m.length → a.length = m.length →
    b.length = m.length → val a < val m → val b < val m →
    GivesResidue m (val a - val b) (subMod target a b m) (subModChecked a b m)
  double : ∀ a : Limbs w, a.length = m.length → val a < val m →
    GivesResidue m (2 * val a) (doubleMod a m) (doubleModChecked a m)
  /-- So it is the masked double that the constants repeat. -/
  doubling : ∀ a : Limbs w, doubleMod a m = doubleModChecked a m
  /-- In place the doublings are counted in a machine word. -/
  radix : 2 ≤ val m → ∃ c, radixModTo m.length m = .ok c ∧
    IsResidue m (2 ^ (w.bits * m.length)) c ∧
    ∀ r : Limbs w, r.length = m.length → w.bits * m.length < sizeLimit → radixMod r m = .ok c
  radixSquare : 2 ≤ val m → ∃ c, radixSquareModTo m.length m = .ok c ∧
    IsResidue m (2 ^ (2 * w.bits * m.length)) c ∧
    ∀ r : Limbs w, r.length = m.length → w.bits * m.length < sizeLimit →
      radixSquareMod r m = .ok c

/-- A number that is a remainder of naturals is the least residue. -/
theorem isResidue_of_mod {c : Limbs w} {x : Nat} (hm : 0 < val m)
    (h : c.length = m.length ∧ val c = x % val m) : IsResidue m x c where
  length := h.1
  value := by rw [h.2, Int.natCast_emod]
  lt := h.2.trans_lt (Nat.mod_lt _ hm)

/-- Adding the modulus to a difference makes it natural, and no other modulo `m`. -/
theorem sub_emod_eq {x y m : Nat} (h : y ≤ m) :
    ((x : Int) - y) % m = ((x + (m - y) : Nat) : Int) % m := by
  have hshift : ((x + (m - y) : Nat) : Int) = (x : Int) - y + m := by omega
  rw [hshift, Int.add_emod_right]

theorem addMod_residue (ha : a.length = m.length) (hb : b.length = m.length)
    (halt : val a < val m) (hblt : val b < val m) :
    addModChecked a b m = .ok (Modular.addMod a b m) ∧
      IsResidue m (val a + val b) (Modular.addMod a b m) := by
  have hresidue := isResidue_of_mod (by omega) (addMod_spec ha hb halt hblt)
  rw [Nat.cast_add] at hresidue
  rw [addModChecked, Checked.require_of ⟨ha.trans hb.symm, ha⟩]
  exact ⟨rfl, hresidue⟩

theorem subMod_residue (ha : a.length = m.length) (hb : b.length = m.length)
    (halt : val a < val m) (hblt : val b < val m) :
    subModChecked a b m = .ok (Modular.subMod a b m) ∧
      IsResidue m (val a - val b) (Modular.subMod a b m) := by
  have hresidue := isResidue_of_mod (by omega) (subMod_spec ha hb halt hblt)
  have hvalue : (val (Modular.subMod a b m) : Int) = ((val a : Int) - val b) % val m := by
    rw [hresidue.value, sub_emod_eq hblt.le]
  rw [subModChecked, Checked.require_of ⟨ha.trans hb.symm, ha⟩]
  exact ⟨rfl, hresidue.length, hvalue, hresidue.lt⟩

theorem doubleMod_residue (ha : a.length = m.length) (halt : val a < val m) :
    doubleModChecked a m = .ok (Modular.doubleMod a m) ∧
      IsResidue m (2 * val a) (Modular.doubleMod a m) := by
  have hresidue := isResidue_of_mod (by omega) (doubleMod_spec ha halt)
  rw [Nat.cast_mul] at hresidue
  exact ⟨doubleModChecked_eq ha, hresidue⟩

/-- A constant in place is the one on values, counted in a machine word. -/
theorem radixMod_inPlace {r : Limbs w} (hr : r.length = m.length)
    (hbits : w.bits * m.length < sizeLimit) : radixMod r m = .ok (Modular.radixMod m) := by
  rw [radixMod, Checked.require_of hr, Checked.ok_bind, cleared_set_one, hr]
  exact Trapping.radixMod_eq hbits

theorem radixSquareMod_inPlace {r : Limbs w} (hr : r.length = m.length)
    (hbits : w.bits * m.length < sizeLimit) :
    radixSquareMod r m = .ok (Modular.radixSquareMod m) := by
  rw [radixSquareMod, radixMod_inPlace hr hbits, Checked.ok_bind, checkedSize_eq hbits]
  exact (iterate_doubleMod _ (length_radixMod m)).1

/-- Masked sums, differences, doubles and the two constants are least residues of
the exact numbers. -/
theorem masked_residues (m : Limbs w) : MaskedResidues m where
  sum target a b htarget ha hb halt hblt := by
    obtain ⟨hplain, hresidue⟩ := addMod_residue ha hb halt hblt
    exact ⟨_, (addMod_eq (htarget.trans ha.symm)).trans hplain, hplain, hresidue⟩
  sumAssign a b ha hb halt hblt := by
    obtain ⟨hplain, hresidue⟩ := addMod_residue ha hb halt hblt
    exact ⟨_, (addMod_eq rfl).trans hplain, hplain, hresidue⟩
  difference target a b htarget ha hb halt hblt := by
    obtain ⟨hplain, hresidue⟩ := subMod_residue ha hb halt hblt
    exact ⟨_, (subMod_eq (htarget.trans ha.symm) ha).trans hplain, hplain, hresidue⟩
  double a ha halt := by
    obtain ⟨hplain, hresidue⟩ := doubleMod_residue ha halt
    exact ⟨_, (doubleMod_eq a m).trans hplain, hplain, hresidue⟩
  doubling a := doubleMod_eq a m
  radix hm := by
    have hresidue := isResidue_of_mod (by omega) (radixMod_spec hm)
    rw [Nat.cast_pow] at hresidue
    refine ⟨Modular.radixMod m, ?_, hresidue, fun r hr hbits => radixMod_inPlace hr hbits⟩
    rw [radixModTo, Checked.require_of rfl]
    rfl
  radixSquare hm := by
    have hspec := radixSquareMod_spec hm
    rw [← Nat.pow_add, ← Nat.two_mul, ← Nat.mul_assoc] at hspec
    have hresidue := isResidue_of_mod (by omega) hspec
    rw [Nat.cast_pow] at hresidue
    refine ⟨Modular.radixSquareMod m, ?_, hresidue, fun r hr hbits =>
      radixSquareMod_inPlace hr hbits⟩
    rw [radixSquareModTo, Checked.require_of rfl]
    rfl

/-- One word with every bit set: the sum and the double are carried out of it, the
difference borrows, and sixty-four doublings make the squared radix. -/
theorem masked_residues_full_word :
    let m : Limbs .w32 := [0xffffffff]
    GivesResidue m (0xfffffffe + 0xfffffffe) (addMod [7] [0xfffffffe] [0xfffffffe] m)
        (addModChecked [0xfffffffe] [0xfffffffe] m) ∧
      GivesResidue m (3 - 4) (subMod [7] [3] [4] m) (subModChecked [3] [4] m) ∧
      GivesResidue m (2 * 0xfffffffe) (doubleMod [0xfffffffe] m)
        (doubleModChecked [0xfffffffe] m) ∧
      ∃ c, radixSquareMod [7] m = .ok c ∧ IsResidue m (2 ^ 64) c := by
  intro m
  have h := masked_residues m
  obtain ⟨c, -, hresidue, hrun⟩ := h.radixSquare (by decide)
  refine ⟨?_, ?_, ?_, c, hrun [7] rfl (by decide), hresidue⟩
  · exact h.sum [7] [0xfffffffe] [0xfffffffe] rfl rfl rfl (by decide) (by decide)
  · exact h.difference [7] [3] [4] rfl rfl rfl (by decide) (by decide)
  · exact h.double [0xfffffffe] rfl (by decide)

example : addMod [7] [0xfffffffe] [0xfffffffe] ([0xffffffff] : Limbs .w32) =
    .ok [0xfffffffd] := by rfl

end CryptoPrimes.InPlace
