import CryptoPrimes.Proofs.Trapping.Limbs

/-!
# Shifts in values

A shift moves whole words and then less than a word, with a branch for each of the
two.  In values there is one law for every distance, those beyond the width
included: to the left the low words of a product, to the right a quotient.  What a
shift below a word hands out is the other part of the same product, or the remainder
of the same quotient.

A shift to the left has lost nothing if the product fits the words, and for a nonzero
number that is a matter of its length in bits (`mul_two_pow_lt_iff`).  So it is the
length that says whether the way back ends at the same number.
-/

namespace CryptoPrimes

/-- A nonzero number gains a bit at each doubling. -/
theorem mul_two_pow_lt_iff {v : Nat} (hv : v ≠ 0) (s k : Nat) :
    v * 2 ^ s < 2 ^ k ↔ Nat.size v + s ≤ k := by
  rw [← Nat.shiftLeft_eq, ← Nat.size_le, Nat.size_shiftLeft hv]

/-- A product that is cut off is too small to come back. -/
theorem mul_two_pow_mod_div_eq_iff {v s M : Nat} (hM : 0 < M) :
    v * 2 ^ s % M / 2 ^ s = v ↔ v * 2 ^ s < M := by
  have hpos := Nat.two_pow_pos s
  constructor
  · intro hback
    by_contra hlarge
    have hcut : v * 2 ^ s % M < v * 2 ^ s := (Nat.mod_lt _ hM).trans_le (Nat.le_of_not_lt hlarge)
    have hless := (Nat.div_lt_iff_lt_mul hpos).mpr hcut
    omega
  · intro hfits
    rw [Nat.mod_eq_of_lt hfits, Nat.mul_div_cancel _ hpos]

namespace Trapping

open Limbs

variable {w : Width} {a : Limbs w}

/-- The routine that traps has the result of the plain one: words as many as those of
`a`, and in them the number `x`. -/
structure Gives (a : Limbs w) (x : Nat) (trapping : Checked (Limbs w)) (plain : Limbs w) :
    Prop where
  run : trapping = .ok plain
  length : plain.length = a.length
  value : val plain = x

/-- What is promised of shifts and of a truncation of `a`, by any distance `s`. -/
structure ShiftsByValue (a : Limbs w) : Prop where
  left : ∀ s, Gives a (val a * 2 ^ s % 2 ^ (w.bits * a.length)) (shiftLeft a s)
    (Limbs.shiftLeft a s)
  right : ∀ s, Gives a (val a / 2 ^ s) (shiftRight a s) (Limbs.shiftRight a s)
  trim : ∀ s, Gives a (val a % 2 ^ s) (trimBits a s) (Limbs.trimBits a s)
  /-- Below a word the lost bits are handed out at the low end of a word. -/
  leftWithin : ∀ s < w.bits, ∃ c lost, shlCarry a s = .ok (c, lost) ∧ c.length = a.length ∧
    val c = val a * 2 ^ s % 2 ^ (w.bits * a.length) ∧
    lost.toNat = val a * 2 ^ s / 2 ^ (w.bits * a.length)
  /-- Below a word the lost bits are handed out at the high end of a word. -/
  rightWithin : ∀ s < w.bits, ∃ c lost, shrCarry a s = .ok (c, lost) ∧ c.length = a.length ∧
    val c = val a / 2 ^ s ∧ lost.toNat = val a % 2 ^ s * 2 ^ (w.bits - s)
  bits : bitLen a = .ok (Nat.size (val a))
  undone : val a ≠ 0 → ∀ s, (do shiftRight (← shiftLeft a s) s) = .ok a ↔
    Nat.size (val a) + s ≤ w.bits * a.length
  longer : val a ≠ 0 → ∀ s, Nat.size (val a) + s ≤ w.bits * a.length →
    (do bitLen (← shiftLeft a s)) = .ok (Nat.size (val a) + s)

/-- Every shift is the product or the quotient of its distance. -/
theorem shifts_by_value (h : w.bits * a.length < sizeLimit) : ShiftsByValue a where
  left s := ⟨shiftLeft_eq a s, length_shiftLeft a s, val_shiftLeft a s⟩
  right s := ⟨shiftRight_eq a s, length_shiftRight a s, val_shiftRight a s⟩
  trim s := ⟨trimBits_eq (lt_of_le_of_lt (Nat.le_mul_of_pos_left _ w.bits_pos) h) s,
    length_trimBits a s, val_trimBits a s⟩
  leftWithin s hs := ⟨_, _, shlCarry_eq a hs, length_shlWithin a s, val_shlWithin_mod a hs,
    lost_shlWithin a hs⟩
  rightWithin s hs := ⟨_, _, shrCarry_eq a hs, length_shrWithin a s, val_shrWithin a hs,
    lost_shrWithin a hs⟩
  bits := by rw [bitLen_eq h, bitLen_eq_size]
  undone ha s := by
    have hlength : (Limbs.shiftRight (Limbs.shiftLeft a s) s).length = a.length :=
      (length_shiftRight _ s).trans (length_shiftLeft a s)
    rw [shiftLeft_eq, Checked.ok_bind, shiftRight_eq, Except.ok.injEq, ← mul_two_pow_lt_iff ha,
      ← mul_two_pow_mod_div_eq_iff (radix_pos w _), ← val_shiftLeft, ← val_shiftRight]
    exact ⟨congrArg val, val_inj hlength⟩
  longer ha s hs := by
    have hfits := (mul_two_pow_lt_iff ha s _).mpr hs
    rw [shiftLeft_eq, Checked.ok_bind, bitLen_eq (by rwa [length_shiftLeft]), bitLen_eq_size,
      val_shiftLeft, Nat.mod_eq_of_lt hfits, ← Nat.shiftLeft_eq, Nat.size_shiftLeft ha]

/-- Thirty-three bits in two words can be moved up by thirty-one places and back, but
not by thirty-two, and by sixty-four places nothing is left. -/
theorem shifts_by_value_two_words :
    let a : Limbs .w32 := [0x80000001, 1]
    (do shiftRight (← shiftLeft a 31) 31) = .ok a ∧
      (do bitLen (← shiftLeft a 31)) = .ok 64 ∧
      (do shiftRight (← shiftLeft a 32) 32) ≠ .ok a ∧
      ∃ c, shiftLeft a 64 = .ok c ∧ val c = 0 := by
  intro a
  have h := shifts_by_value (a := a) (by decide)
  have hsize : Nat.size (val a) = 33 :=
    le_antisymm (Nat.size_le.mpr (by decide)) (Nat.lt_size.mpr (by decide))
  have hne : val a ≠ 0 := by decide
  have hlonger := h.longer hne 31
  have hundone := h.undone hne
  rw [hsize] at hlonger
  simp only [hsize] at hundone
  refine ⟨(hundone 31).mpr (by decide), hlonger (by decide), ?_, _, (h.left 64).run, ?_⟩
  · exact fun hback => absurd ((hundone 32).mp hback) (by decide)
  · exact (h.left 64).value.trans (by decide)

end Trapping

end CryptoPrimes
