import Mathlib.Algebra.BigOperators.Group.Finset.Basic
import CryptoPrimes.Proofs.Word.Bits

/-!
# Counting zeros without a branch

Each of the branch-free counts turns its word into one whose ones fill the lowest
places.  Such a word is one less than a power of two, and its weight is the exponent
(`weight_of_low`).

* From below: a number ends in a one and `trailingZeros` zeros, and its predecessor in
  a zero and as many ones, the higher bits being the same.  So these ones are all that
  is set in `x - 1` and clear in `x` (`toNat_trailingMask`).
* From above: smearing by `1, 2, …, 2 ^ (n - 1)` sets a bit if one of the `2 ^ n` bits
  from its place upwards is set (`testBit_smear_distances`).  The last distance of a
  word is half of it, so every place sees all that is above it, and the ones fill the
  bit length (`toNat_smear`).

The zero word has neither a lowest nor a highest one; all its places count at both ends.
-/

namespace CryptoPrimes

/-- Binary digits of a place in a word. -/
def Width.placeDigits : Width → Nat
  | .w32 => 5
  | .w64 => 6

theorem Width.bits_eq_two_pow (w : Width) : w.bits = 2 ^ w.placeDigits := by
  cases w <;> rfl

namespace Word

variable {w : Width}

/-! ## Weight -/

private theorem count_map_range (f : Nat → Bool) (n : Nat) :
    ((List.range n).map f).count true = ∑ i ∈ Finset.range n, (f i).toNat := by
  induction n with
  | zero => rfl
  | succ n ih =>
      rw [List.range_succ, List.map_append, List.count_append, ih, Finset.sum_range_succ]
      cases hbit : f n <;> simp [hbit]

theorem weight_eq_sum (x : Word w) :
    x.weight = ∑ i ∈ Finset.range w.bits, (x.toNat.testBit i).toNat := by
  rw [weight, bitList_eq, count_map_range]

/-- A word whose ones fill its lowest `n` places has `n` of them. -/
theorem weight_of_low {x : Word w} {n : Nat} (hn : n ≤ w.bits) (hx : x.toNat = 2 ^ n - 1) :
    x.weight = n := by
  obtain ⟨rest, hrest⟩ := Nat.exists_eq_add_of_le hn
  have hones : ∑ i ∈ Finset.range n, ((2 ^ n - 1).testBit i).toNat = n := by
    rw [Finset.sum_congr rfl (g := fun _ => 1)]
    · simp
    · intro i hi
      simp [Finset.mem_range.mp hi]
  have hzeros : ∑ i ∈ Finset.range rest, ((2 ^ n - 1).testBit (n + i)).toNat = 0 := by
    simp
  rw [weight_eq_sum, hx, hrest, Finset.sum_range_add, hones, hzeros, Nat.add_zero]

/-! ## Zeros below the lowest one -/

theorem trailingZeros_zero : (0 : Word w).trailingZeros = w.bits := by
  cases w <;> decide

/-- Apart from its factors two, a number is odd. -/
theorem toNat_eq_two_pow_mul_odd {x : Word w} (hx : x ≠ 0) :
    ∃ q, x.toNat = 2 ^ x.trailingZeros * (2 * q + 1) := by
  obtain ⟨-, hdvd, hodd⟩ := trailingZeros_spec (toNat_ne_zero hx)
  refine ⟨x.toNat / 2 ^ x.trailingZeros / 2, ?_⟩
  have hhalf : 2 * (x.toNat / 2 ^ x.trailingZeros / 2) + 1 = x.toNat / 2 ^ x.trailingZeros := by
    omega
  rw [hhalf, Nat.mul_div_cancel' hdvd]

theorem trailingZeros_le (x : Word w) : x.trailingZeros ≤ w.bits := by
  by_cases hx : x = 0
  · rw [hx, trailingZeros_zero]
  · exact (trailingZeros_spec (toNat_ne_zero hx)).1.le

/-- The trailing zeros of a nonzero word are the place of its lowest one. -/
theorem trailingZeros_isLeast {x : Word w} (hx : x ≠ 0) :
    IsLeast {i | x.toNat.testBit i = true} x.trailingZeros := by
  obtain ⟨q, hq⟩ := toNat_eq_two_pow_mul_odd hx
  constructor
  · show x.toNat.testBit x.trailingZeros = true
    rw [hq, Nat.testBit_two_pow_mul]
    simp
  · intro i (hi : x.toNat.testBit i = true)
    rw [hq, Nat.testBit_two_pow_mul, Bool.and_eq_true, decide_eq_true_iff] at hi
    exact hi.1

/-- What is clear in a word and set in its predecessor are its trailing zeros. -/
theorem toNat_trailingMask (x : Word w) :
    (~~~x &&& (x - 1)).toNat = 2 ^ x.trailingZeros - 1 := by
  by_cases hx : x = 0
  · rw [hx, trailingZeros_zero]
    cases w <;> rfl
  obtain ⟨q, hq⟩ := toNat_eq_two_pow_mul_odd hx
  have hlt := (trailingZeros_spec (toNat_ne_zero hx)).1
  generalize x.trailingZeros = t at *
  have hpow := Nat.two_pow_pos t
  have hvalue : x.toNat = 2 ^ t * (2 * q + 1) + 0 := hq
  have hbefore : (x - 1).toNat = 2 ^ t * (2 * q) + (2 ^ t - 1) := by
    rw [Nat.mul_succ] at hq
    rw [toNat_sub_of_le (by rw [toNat_one]; omega), toNat_one]
    omega
  apply Nat.eq_of_testBit_eq
  intro i
  rw [toNat_and, Nat.testBit_and, testBit_complement, hbefore, hvalue,
    Nat.testBit_two_pow_mul_add _ hpow, Nat.testBit_two_pow_mul_add _ (by omega),
    Nat.testBit_two_pow_sub_one]
  by_cases hi : i < t
  · simp [hi, hi.trans hlt]
  · -- the lowest one is set in the word, and above it the bits of `q` are in both
    cases i - t <;> simp [hi, Nat.testBit_succ, Nat.mul_add_div]

theorem trailingZerosMasked_eq (x : Word w) : x.trailingZerosMasked = x.trailingZeros :=
  weight_of_low x.trailingZeros_le x.toNat_trailingMask

/-! ## Zeros above the highest one -/

theorem smearDistances_eq (w : Width) :
    smearDistances w = (List.range w.placeDigits).map (2 ^ ·) := by
  cases w <;> rfl

/-- With each distance a bit sees twice as many places from its own upwards. -/
theorem testBit_smear_distances (x : Word w) {n : Nat} (hn : n ≤ w.placeDigits) (i : Nat) :
    (((List.range n).map (2 ^ ·)).foldl (fun y distance => y ||| (y >>> distance)) x).toNat.testBit i
        = true ↔ ∃ d < 2 ^ n, x.toNat.testBit (i + d) = true := by
  induction n generalizing i with
  | zero => simp
  | succ n ih =>
      have hdistance : 2 ^ n < w.bits := by
        rw [w.bits_eq_two_pow]
        exact Nat.pow_lt_pow_right (by decide) hn
      rw [List.range_succ, List.map_append, List.foldl_append, List.map_singleton,
        List.foldl_cons, List.foldl_nil, toNat_or, Nat.testBit_or,
        testBit_shiftRight _ (bits_lt_register w hdistance), Bool.or_eq_true,
        ih (Nat.le_of_succ_le hn), ih (Nat.le_of_succ_le hn), Nat.pow_succ]
      constructor
      · rintro (⟨d, hd, hbit⟩ | ⟨d, hd, hbit⟩)
        · exact ⟨d, by omega, hbit⟩
        · exact ⟨2 ^ n + d, by omega, by rwa [← Nat.add_assoc]⟩
      · rintro ⟨d, hd, hbit⟩
        rcases Nat.lt_or_ge d (2 ^ n) with hnear | hfar
        · exact Or.inl ⟨d, hnear, hbit⟩
        · refine Or.inr ⟨d - 2 ^ n, by omega, ?_⟩
          rwa [Nat.add_assoc, Nat.add_sub_cancel' hfar]

/-- A place sees a one at or above it as long as it is within the bit length. -/
theorem exists_testBit_iff_lt_size (x : Word w) (i : Nat) :
    (∃ d < w.bits, x.toNat.testBit (i + d) = true) ↔ i < Nat.size x.toNat := by
  rw [Nat.lt_size]
  constructor
  · rintro ⟨d, -, hbit⟩
    exact (Nat.pow_le_pow_right (by decide) (Nat.le_add_right i d)).trans
      (Nat.ge_two_pow_of_testBit hbit)
  · intro hle
    obtain ⟨j, hj, hbit⟩ := Nat.exists_ge_and_testBit_of_ge_two_pow hle
    refine ⟨j - i, ?_, by rwa [Nat.add_sub_cancel' hj]⟩
    by_contra hfar
    rw [testBit_of_bits_le x (by omega)] at hbit
    exact Bool.noConfusion hbit

theorem toNat_smear (x : Word w) : x.smear.toNat = 2 ^ Nat.size x.toNat - 1 := by
  apply Nat.eq_of_testBit_eq
  intro i
  rw [Nat.testBit_two_pow_sub_one, Bool.eq_iff_iff, decide_eq_true_iff, smear, smearDistances_eq,
    testBit_smear_distances x le_rfl, ← w.bits_eq_two_pow, exists_testBit_iff_lt_size]

theorem leadingZerosMasked_eq (x : Word w) : x.leadingZerosMasked = x.leadingZeros := by
  rw [leadingZerosMasked, weight_of_low x.size_le_bits x.toNat_smear, leadingZeros_eq]

/-! ## Both ends -/

/-- The counts of zeros at both ends, with and without a branch: up to the lowest one and
beyond the bit length, which is the least that holds the number. -/
structure CountsZeros (x : Word w) : Prop where
  below : x.trailingZerosMasked = x.trailingZeros
  lowest : x ≠ 0 → IsLeast {i | x.toNat.testBit i = true} x.trailingZeros
  above : x.leadingZerosMasked = x.leadingZeros
  length : x.leadingZeros + x.bitLength = w.bits
  least : IsLeast {t | x.toNat < 2 ^ t} x.bitLength
  zero : x = 0 → x.trailingZeros = w.bits ∧ x.leadingZeros = w.bits

theorem countsZeros (x : Word w) : CountsZeros x where
  below := x.trailingZerosMasked_eq
  lowest := trailingZeros_isLeast
  above := x.leadingZerosMasked_eq
  length := by rw [leadingZeros_eq, bitLength_eq_size, Nat.sub_add_cancel x.size_le_bits]
  least := x.bitLength_eq_size ▸ size_isLeast x.toNat
  zero := by
    rintro rfl
    refine ⟨trailingZeros_zero, ?_⟩
    rw [leadingZeros_eq, toNat_zero, Nat.size_zero, Nat.sub_zero]

end Word

end CryptoPrimes
