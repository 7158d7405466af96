import Mathlib.Data.List.Basic
import Mathlib.Data.Nat.Bitwise
import Mathlib.Data.Nat.Size
import Mathlib.Order.Bounds.Defs
import CryptoPrimes.Word.Bits

/-!
# The values of bit operations

Shifts, masks and bit counts of a word, read as statements about its number.
Shifts are stated for distances below the register, which is all that callers
use; the counts are stated through `Nat.size` and divisibility by powers of two.

* `toNat_shiftLeft`, `toNat_shiftRight` — multiplication and division by a power
  of two;
* `toNat_shiftLeft_or` — a shifted word joined with a shorter one is a sum;
* `testBit_shiftLeft`, `testBit_shiftRight` — the same shifts move bits to other
  places, and words with the same bits are the same (`ext_testBit`);
* `bitLength_eq_size` — the bit length is the size of the number;
* `leadingZeros_spec` — shifted by its leading zeros, a word has its highest one at the
  top;
* `trailingZeros_spec` — the trailing zeros are the twos of the number.
-/

namespace CryptoPrimes.Word

variable {w : Width}

theorem bits_lt_register (w : Width) {n : Nat} (hn : n < w.bits) : n < 64 :=
  lt_of_lt_of_le hn w.bits_le

/-! ## Bitwise operators -/

theorem toNat_and (x y : Word w) : (x &&& y).toNat = x.toNat &&& y.toNat := by
  show (truncate (x.raw &&& y.raw) : Word w).toNat = _
  rw [toNat_truncate, UInt64.toNat_and]
  exact Nat.mod_eq_of_lt (lt_of_le_of_lt Nat.and_le_left x.toNat_lt)

theorem toNat_or (x y : Word w) : (x ||| y).toNat = x.toNat ||| y.toNat := by
  show (truncate (x.raw ||| y.raw) : Word w).toNat = _
  rw [toNat_truncate, UInt64.toNat_or]
  exact Nat.mod_eq_of_lt (Nat.or_lt_two_pow x.toNat_lt y.toNat_lt)

theorem toNat_complement (x : Word w) : (~~~x).toNat = 2 ^ w.bits - 1 - x.toNat := by
  show (truncate (~~~x.raw) : Word w).toNat = _
  have hx := x.toNat_lt
  rw [toNat_truncate, UInt64.toNat_not]
  show (2 ^ 64 - 1 - x.toNat) % 2 ^ w.bits = _
  cases w <;> simp only [Width.bits] at * <;> omega

theorem toNat_xor (x y : Word w) : (x ^^^ y).toNat = x.toNat ^^^ y.toNat := by
  show (truncate (x.raw ^^^ y.raw) : Word w).toNat = _
  rw [toNat_truncate, UInt64.toNat_xor]
  exact Nat.mod_eq_of_lt (Nat.xor_lt_two_pow x.toNat_lt y.toNat_lt)

theorem toNat_shiftLeft (x : Word w) {n : Nat} (hn : n < 64) :
    (x <<< n).toNat = x.toNat * 2 ^ n % 2 ^ w.bits := by
  show (truncate (x.raw <<< UInt64.ofNat n) : Word w).toNat = _
  have hdistance : (UInt64.ofNat n).toNat % 64 = n := by
    rw [UInt64.toNat_ofNat']
    omega
  rw [toNat_truncate, UInt64.toNat_shiftLeft, hdistance, mod_register, Nat.shiftLeft_eq]
  rfl

theorem toNat_shiftRight (x : Word w) {n : Nat} (hn : n < 64) :
    (x >>> n).toNat = x.toNat / 2 ^ n := by
  show (truncate (x.raw >>> UInt64.ofNat n) : Word w).toNat = _
  have hdistance : (UInt64.ofNat n).toNat % 64 = n := by
    rw [UInt64.toNat_ofNat']
    omega
  rw [toNat_truncate, UInt64.toNat_shiftRight, hdistance, Nat.shiftRight_eq_div_pow]
  exact Nat.mod_eq_of_lt (lt_of_le_of_lt (Nat.div_le_self _ _) x.toNat_lt)

theorem toNat_one_shiftLeft {n : Nat} (hn : n < w.bits) : ((1 : Word w) <<< n).toNat = 2 ^ n := by
  rw [toNat_shiftLeft _ (bits_lt_register w hn), toNat_one, Nat.one_mul]
  exact Nat.mod_eq_of_lt (Nat.pow_lt_pow_right (by decide) hn)

/-- A word moved up by `n` places leaves room for a number below `2 ^ n`. -/
theorem toNat_shiftLeft_or {x y : Word w} {n : Nat} (hn : n < w.bits) (hy : y.toNat < 2 ^ n) :
    ((x <<< n) ||| y).toNat = x.toNat % 2 ^ (w.bits - n) * 2 ^ n + y.toNat := by
  have hsplit : 2 ^ w.bits = 2 ^ (w.bits - n) * 2 ^ n := by
    rw [← Nat.pow_add, Nat.sub_add_cancel hn.le]
  rw [toNat_or, toNat_shiftLeft x (bits_lt_register w hn), hsplit, Nat.mul_mod_mul_right,
    Nat.mul_comm, ← Nat.two_pow_add_eq_or_of_lt hy]

/-! ## Single bits -/

theorem testBit_eq (x : Word w) (i : Nat) : x.testBit i = x.toNat.testBit i := by
  rcases Nat.lt_or_ge i w.bits with hi | hi
  · have hdistance : (UInt64.ofNat i).toNat % 64 = i := by
      have := bits_lt_register w hi
      rw [UInt64.toNat_ofNat']
      omega
    have hbit : ((x.raw >>> UInt64.ofNat i) &&& 1 == 1) =
        ((x.raw >>> UInt64.ofNat i) &&& 1).toNat.testBit 0 := by
      rw [Nat.testBit_zero, Bool.eq_iff_iff, beq_iff_eq, decide_eq_true_iff,
        ← UInt64.toNat_inj, UInt64.toNat_and]
      simp [Nat.and_one_is_mod]
    unfold testBit
    rw [hbit, decide_eq_true hi, Bool.true_and, UInt64.toNat_and, Nat.testBit_and,
      UInt64.toNat_shiftRight, hdistance, Nat.testBit_shiftRight]
    simp [toNat]
  · have hhigh : x.toNat < 2 ^ i :=
      lt_of_lt_of_le x.toNat_lt (Nat.pow_le_pow_right (by decide) hi)
    unfold testBit
    rw [decide_eq_false (by omega), Bool.false_and, Nat.testBit_lt_two_pow hhigh]

theorem testBit_complement (x : Word w) (i : Nat) :
    (~~~x).toNat.testBit i = (decide (i < w.bits) && !x.toNat.testBit i) := by
  rw [toNat_complement, Nat.sub_sub, Nat.add_comm 1]
  exact Nat.testBit_two_pow_sub_succ x.toNat_lt i

theorem testBit_of_bits_le (x : Word w) {i : Nat} (hi : w.bits ≤ i) : x.toNat.testBit i = false :=
  Nat.testBit_lt_two_pow (lt_of_lt_of_le x.toNat_lt (Nat.pow_le_pow_right (by decide) hi))

theorem ext_testBit {x y : Word w}
    (h : ∀ i < w.bits, x.toNat.testBit i = y.toNat.testBit i) : x = y := by
  refine ext (Nat.eq_of_testBit_eq fun i => ?_)
  rcases Nat.lt_or_ge i w.bits with hin | hout
  · exact h i hin
  · rw [testBit_of_bits_le x hout, testBit_of_bits_le y hout]

theorem testBit_shiftLeft (x : Word w) {n i : Nat} (hn : n < 64) (hi : i < w.bits) :
    (x <<< n).toNat.testBit i = (decide (n ≤ i) && x.toNat.testBit (i - n)) := by
  rw [toNat_shiftLeft x hn, Nat.testBit_mod_two_pow, decide_eq_true hi, Bool.true_and,
    Nat.testBit_mul_two_pow]

theorem testBit_shiftRight (x : Word w) {n : Nat} (hn : n < 64) (i : Nat) :
    (x >>> n).toNat.testBit i = x.toNat.testBit (i + n) := by
  rw [toNat_shiftRight x hn, Nat.testBit_div_two_pow]

/-- The bits of a word are the lowest bits of its number. -/
theorem bitList_eq (x : Word w) : x.bitList = (List.range w.bits).map x.toNat.testBit :=
  congrArg ((List.range w.bits).map ·) (funext x.testBit_eq)

theorem isOdd_iff (x : Word w) : x.isOdd = true ↔ x.toNat % 2 = 1 := by
  unfold isOdd
  rw [beq_iff_eq, ← UInt64.toNat_inj, UInt64.toNat_and]
  simp [toNat, Nat.and_one_is_mod]

/-- Setting the lowest bit makes a word odd and leaves the rest of it. -/
theorem toNat_or_one (x : Word w) : (x ||| 1).toNat = 2 * (x.toNat / 2) + 1 := by
  have hdiv : (x.toNat ||| 1) / 2 = x.toNat / 2 := by
    rw [Nat.or_div_two]
    exact Nat.or_zero _
  have hmod : (x.toNat ||| 1) % 2 = 1 := by simp
  rw [toNat_or, toNat_one]
  omega

theorem add_ofBool_false (x : Word w) : x + ofBool false = x := by
  ext
  rw [toNat_add, toNat_ofBool, Bool.toNat_false, Nat.add_zero, Nat.mod_eq_of_lt x.toNat_lt]

theorem sub_ofBool_false (x : Word w) : x - ofBool false = x := by
  ext
  rw [toNat_sub, toNat_ofBool, Bool.toNat_false, Nat.sub_zero, Nat.add_mod_left,
    Nat.mod_eq_of_lt x.toNat_lt]

theorem toNat_sub_of_le {x y : Word w} (h : y.toNat ≤ x.toNat) :
    (x - y).toNat = x.toNat - y.toNat := by
  have hx := x.toNat_lt
  have hwrap : 2 ^ w.bits - y.toNat + x.toNat = 2 ^ w.bits + (x.toNat - y.toNat) := by omega
  rw [toNat_sub, hwrap, Nat.add_mod_left, Nat.mod_eq_of_lt (by omega)]

theorem not_lt_ofBool_false (x : Word w) : ¬ x < (ofBool false : Word w) := by
  rw [lt_iff_toNat_lt]
  simp

theorem halfBits_lt (w : Width) : w.halfBits < w.bits := by
  cases w <;> decide

theorem toNat_ne_zero {x : Word w} (hx : x ≠ 0) : x.toNat ≠ 0 :=
  fun h => hx (ext (h.trans toNat_zero.symm))

theorem toNat_halfMask : (halfMask : Word w).toNat = 2 ^ w.halfBits - 1 := by
  cases w <;> rfl

theorem toNat_two : (2 : Word w).toNat = 2 := by
  cases w <;> rfl

theorem toNat_three : (3 : Word w).toNat = 3 := by
  cases w <;> rfl

/-! ## Counting from either end -/

/-- The size of a number is the least number of bits that hold it. -/
theorem size_isLeast (n : Nat) : IsLeast {t | n < 2 ^ t} (Nat.size n) :=
  ⟨Nat.lt_size_self n, fun _ ht => Nat.size_le.mpr ht⟩

theorem size_le_bits (x : Word w) : Nat.size x.toNat ≤ w.bits :=
  Nat.size_le.mpr x.toNat_lt

private theorem reverse_range_succ_map (f : Nat → Bool) (n : Nat) :
    ((List.range (n + 1)).map f).reverse = f n :: ((List.range n).map f).reverse := by
  simp [List.range_succ]

/-- What the top zeros of the low `n` bits leave is the size of these bits. -/
private theorem size_mod_two_pow (x n : Nat) :
    n - ((List.range n).map x.testBit).reverse.idxOf true = Nat.size (x % 2 ^ n) ∧
      ((List.range n).map x.testBit).reverse.idxOf true ≤ n := by
  induction n with
  | zero => simp [Nat.mod_one]
  | succ n ih =>
      have hsplit : x % 2 ^ (n + 1) = x % 2 ^ n + 2 ^ n * (x.testBit n).toNat := by
        rw [Nat.mod_pow_succ, Nat.toNat_testBit]
      rw [reverse_range_succ_map, hsplit]
      have hlow : x % 2 ^ n < 2 ^ n := Nat.mod_lt _ (Nat.two_pow_pos n)
      cases hbit : x.testBit n with
      | true =>
          have hsize : Nat.size (x % 2 ^ n + 2 ^ n) = n + 1 := by
            refine le_antisymm (Nat.size_le.mpr ?_) (Nat.lt_size.mpr (Nat.le_add_left _ _))
            rw [Nat.pow_succ]
            omega
          simp [hsize]
      | false =>
          have hskip (l : List Bool) : (false :: l).idxOf true = l.idxOf true + 1 :=
            List.idxOf_cons_ne l Bool.false_ne_true
          simp only [hskip, Bool.toNat_false, Nat.mul_zero, Nat.add_zero]
          omega

/-- The bit length of a word is the size of its number. -/
theorem bitLength_eq_size (x : Word w) : x.bitLength = Nat.size x.toNat := by
  have h := (size_mod_two_pow x.toNat w.bits).1
  rw [Nat.mod_eq_of_lt x.toNat_lt] at h
  rw [bitLength, leadingZeros, bitList_eq, h]

theorem leadingZeros_eq (x : Word w) : x.leadingZeros = w.bits - Nat.size x.toNat := by
  have h := (size_mod_two_pow x.toNat w.bits).2
  have hlen : x.bitLength = w.bits - x.leadingZeros := rfl
  have hle : x.leadingZeros ≤ w.bits := by
    rw [leadingZeros, bitList_eq]
    exact h
  rw [← bitLength_eq_size, hlen]
  omega

/-- A nonzero word that is shifted by its leading zeros has its highest one at the top,
and there is room for all that its lower bits could be. -/
theorem leadingZeros_spec {x : Word w} (hx : x.toNat ≠ 0) :
    x.leadingZeros < w.bits ∧ 2 ^ (w.bits - 1) ≤ x.toNat * 2 ^ x.leadingZeros ∧
      (x.toNat + 1) * 2 ^ x.leadingZeros ≤ 2 ^ w.bits := by
  have hsize := Nat.size_pos.mpr (Nat.pos_of_ne_zero hx)
  have hroom := x.size_le_bits
  have hshift := x.leadingZeros_eq
  refine ⟨by omega, ?_, ?_⟩
  · calc 2 ^ (w.bits - 1) = 2 ^ (Nat.size x.toNat - 1) * 2 ^ x.leadingZeros := by
          rw [← Nat.pow_add]
          congr 1
          omega
      _ ≤ x.toNat * 2 ^ x.leadingZeros :=
          Nat.mul_le_mul_right _ (Nat.lt_size.mp (Nat.sub_lt hsize Nat.one_pos))
  · calc (x.toNat + 1) * 2 ^ x.leadingZeros
        ≤ 2 ^ Nat.size x.toNat * 2 ^ x.leadingZeros :=
          Nat.mul_le_mul_right _ (Nat.lt_size_self _)
      _ = 2 ^ w.bits := by rw [← Nat.pow_add, hshift, Nat.add_sub_cancel' hroom]

/-- The trailing zeros of a nonzero word are the factors two of its number. -/
theorem trailingZeros_spec {x : Word w} (hx : x.toNat ≠ 0) :
    x.trailingZeros < w.bits ∧ 2 ^ x.trailingZeros ∣ x.toNat ∧
      x.toNat / 2 ^ x.trailingZeros % 2 = 1 := by
  have hlist := x.bitList_eq
  have hmem : true ∈ x.bitList := by
    obtain ⟨i, hi⟩ := Nat.exists_testBit_of_ne_zero hx
    rw [hlist, List.mem_map]
    refine ⟨i, List.mem_range.mpr ?_, hi⟩
    by_contra hcontra
    rw [testBit_of_bits_le x (not_lt.mp hcontra)] at hi
    exact Bool.noConfusion hi
  have hlt : x.trailingZeros < x.bitList.length := List.idxOf_lt_length_iff.mpr hmem
  have hset : x.toNat.testBit x.trailingZeros = true := by
    have h : x.bitList[x.trailingZeros] = true := List.getElem_idxOf hlt
    simpa [hlist] using h
  have hclear : ∀ i < x.trailingZeros, x.toNat.testBit i = false := by
    intro i hi
    have h := List.not_of_lt_findIdx hi
    simpa only [hlist, List.getElem_map, List.getElem_range, beq_eq_false_iff_ne, ne_eq,
      Bool.not_eq_true] using h
  refine ⟨by simpa [bitList] using hlt, ?_, ?_⟩
  · rw [Nat.dvd_iff_mod_eq_zero]
    apply Nat.eq_of_testBit_eq
    intro i
    rw [Nat.testBit_mod_two_pow, Nat.zero_testBit]
    by_cases hi : i < x.trailingZeros <;> simp [hi, hclear]
  · rw [← Nat.shiftRight_eq_div_pow]
    simpa [Nat.testBit] using hset

end CryptoPrimes.Word
