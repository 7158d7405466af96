import Mathlib.Tactic.Linarith
import Mathlib.Tactic.Ring
import CryptoPrimes.Limbs.Division
import CryptoPrimes.Proofs.Word.Bits

/-!
# Numbers behind words

`val` turns a sequence of words into a number.  This file says how `val` sees
the operations that only move words around, and that the queries about length,
order and parity answer about `val` alone.

* `val_append` — the higher words carry the weight of the lower ones' room;
* `val_inj` — words of one length are determined by their number;
* `wordLen_le_iff`, `bitLen_eq_size` — lengths are lengths of the number;
* `compare_eq` — the order of words is the order of numbers;
* `trim_congr` — equal numbers are equal once leading zero words are gone.
-/

namespace CryptoPrimes.Limbs

variable {w : Width}

theorem radix_pos (w : Width) (n : Nat) : 0 < 2 ^ (w.bits * n) := Nat.two_pow_pos _

theorem radix_succ (w : Width) (n : Nat) :
    2 ^ (w.bits * (n + 1)) = 2 ^ w.bits * 2 ^ (w.bits * n) := by
  rw [Nat.mul_succ, Nat.add_comm, Nat.pow_add]

theorem radix_le (w : Width) {m n : Nat} (h : m ≤ n) : 2 ^ (w.bits * m) ≤ 2 ^ (w.bits * n) :=
  Nat.pow_le_pow_right (by decide) (Nat.mul_le_mul_left _ h)

/-- A number whose bits can be counted has far fewer words. -/
theorem length_lt_of_bits {n : Nat} (h : w.bits * n < sizeLimit) : n < 2 ^ 59 := by
  have hbits : 2 ^ 5 ≤ w.bits := by cases w <;> decide
  have hle := Nat.mul_le_mul_right n hbits
  rw [sizeLimit] at h
  omega

/-! ## Joining and cutting -/

theorem val_append (a b : Limbs w) : val (a ++ b) = val a + 2 ^ (w.bits * a.length) * val b := by
  induction a with
  | nil => simp
  | cons x xs ih =>
      rw [List.cons_append, val_cons, val_cons, ih, List.length_cons, radix_succ]
      ring

@[simp] theorem val_zeros (n : Nat) : val (zeros n : Limbs w) = 0 := by
  induction n with
  | zero => rfl
  | succ n ih =>
      rw [zeros] at ih
      unfold zeros
      rw [List.replicate_succ, val_cons, ih]
      simp

@[simp] theorem length_zeros (n : Nat) : (zeros n : Limbs w).length = n := by
  simp [zeros]

@[simp] theorem val_extend (a : Limbs w) (n : Nat) : val (extend a n) = val a := by
  simp [extend, val_append]

theorem length_extend {a : Limbs w} {n : Nat} (h : a.length ≤ n) : (extend a n).length = n := by
  simp only [extend, List.length_append, length_zeros]
  omega

theorem val_one {n : Nat} (hn : n ≠ 0) : val (one n : Limbs w) = 1 := by
  cases n with
  | zero => exact absurd rfl hn
  | succ n => simp [one]

theorem length_one (n : Nat) : (one n : Limbs w).length = n := by
  cases n <;> simp [one]

/-- The low `n` words of a number. -/
def ofNat : Nat → Nat → Limbs w
  | 0, _ => []
  | n + 1, x => Word.ofNat x :: ofNat n (x / 2 ^ w.bits)

theorem length_ofNat (n x : Nat) : (ofNat n x : Limbs w).length = n := by
  induction n generalizing x with
  | zero => rfl
  | succ n ih => rw [ofNat, List.length_cons, ih]

theorem val_ofNat (n x : Nat) : val (ofNat n x : Limbs w) = x % 2 ^ (w.bits * n) := by
  induction n generalizing x with
  | zero => simp [ofNat, Nat.mod_one]
  | succ n ih => rw [ofNat, val_cons, Word.toNat_ofNat, ih, radix_succ, Nat.mod_mul]

theorem val_ofNat_of_lt {n x : Nat} (h : x < 2 ^ (w.bits * n)) : val (ofNat n x : Limbs w) = x := by
  rw [val_ofNat, Nat.mod_eq_of_lt h]

/-- Cutting a number in two leaves quotient and remainder by a power of the
radix. -/
theorem val_take_add_drop (a : Limbs w) {n : Nat} (hn : n ≤ a.length) :
    val (a.take n) + 2 ^ (w.bits * n) * val (a.drop n) = val a := by
  have h := val_append (a.take n) (a.drop n)
  rw [List.take_append_drop, List.length_take, Nat.min_eq_left hn] at h
  exact h.symm

theorem val_take_lt (a : Limbs w) (n : Nat) : val (a.take n) < 2 ^ (w.bits * n) := by
  refine lt_of_lt_of_le (val_lt _) (radix_le w ?_)
  rw [List.length_take]
  exact Nat.min_le_left _ _

/-- Words above a bound on the number are zero and may be cut off. -/
theorem val_take_of_lt {a : Limbs w} {n : Nat} (h : val a < 2 ^ (w.bits * n)) :
    val (a.take n) = val a := by
  rcases Nat.le_total n a.length with hn | hn
  · have hsplit := val_take_add_drop a hn
    have hzero : val (a.drop n) = 0 := by
      by_contra hne
      have hge := Nat.le_mul_of_pos_right (2 ^ (w.bits * n)) (Nat.pos_of_ne_zero hne)
      omega
    rw [hzero] at hsplit
    omega
  · rw [List.take_of_length_le hn]

theorem val_inj {a b : Limbs w} (hlength : a.length = b.length) (h : val a = val b) : a = b := by
  induction a generalizing b with
  | nil => exact (List.eq_nil_of_length_eq_zero hlength.symm).symm
  | cons x xs ih =>
      cases b with
      | nil => simp at hlength
      | cons y ys =>
          rw [val_cons, val_cons] at h
          have hx := x.toNat_lt
          have hy := y.toNat_lt
          have hlow : x.toNat = y.toNat := by
            have hmod := congrArg (· % 2 ^ w.bits) h
            simpa only [Nat.add_mul_mod_self_left, Nat.mod_eq_of_lt hx, Nat.mod_eq_of_lt hy]
              using hmod
          have hhigh : val xs = val ys :=
            Nat.eq_of_mul_eq_mul_left (Nat.two_pow_pos w.bits) (by omega)
          rw [Word.toNat_inj.mp hlow, ih (Nat.succ.inj hlength) hhigh]

theorem eq_ofNat {a : Limbs w} {n x : Nat} (hlength : a.length = n) (h : val a = x) :
    a = ofNat n x := by
  have hlt := val_lt a
  rw [hlength, h] at hlt
  exact val_inj (hlength.trans (length_ofNat n x).symm) (h.trans (val_ofNat_of_lt hlt).symm)

theorem isZero_eq_false_iff (a : Limbs w) : isZero a = false ↔ val a ≠ 0 := by
  rw [← Bool.not_eq_true, isZero_iff]

theorem isWord_iff (a : Limbs w) (x : Word w) : isWord a x = true ↔ val a = x.toNat := by
  cases a with
  | nil => rw [isWord, beq_iff_eq, val_nil, ← Word.toNat_inj, Word.toNat_zero, eq_comm]
  | cons y ys =>
      have hx := x.toNat_lt
      rw [isWord, Bool.and_eq_true, beq_iff_eq, isZero_iff, ← Word.toNat_inj, val_cons]
      constructor
      · rintro ⟨hlow, hhigh⟩
        rw [hlow, hhigh, Nat.mul_zero, Nat.add_zero]
      · intro h
        have hhigh : val ys = 0 := by
          by_contra hne
          have := Nat.le_mul_of_pos_right (2 ^ w.bits) (Nat.pos_of_ne_zero hne)
          omega
        rw [hhigh, Nat.mul_zero, Nat.add_zero] at h
        exact ⟨h, hhigh⟩

theorem isOdd_iff (a : Limbs w) : isOdd a = true ↔ val a % 2 = 1 := by
  cases a with
  | nil => simp [isOdd]
  | cons x xs =>
      have heven : 2 ^ w.bits * val xs % 2 = 0 := by
        have hbits : 2 ^ w.bits % 2 = 0 := by cases w <;> rfl
        rw [Nat.mul_mod, hbits, Nat.zero_mul, Nat.zero_mod]
      unfold isOdd
      rw [Word.isOdd_iff, val_cons]
      omega

theorem headD_mod_two (a : Limbs w) : (a.headD 0).toNat % 2 = val a % 2 := by
  cases a with
  | nil => simp
  | cons x xs =>
      have heven : 2 ^ w.bits * val xs % 2 = 0 := by
        have hbits : 2 ^ w.bits % 2 = 0 := by cases w <;> rfl
        rw [Nat.mul_mod, hbits, Nat.zero_mul, Nat.zero_mod]
      rw [List.headD_cons, val_cons]
      omega

/-! ## Lengths -/

theorem wordLen_le_length (a : Limbs w) : wordLen a ≤ a.length := by
  induction a with
  | nil => rfl
  | cons x xs ih =>
      unfold wordLen
      rw [List.length_cons]
      split
      · split <;> omega
      · omega

/-- The significant words hold the number, and one word less does not. -/
theorem wordLen_bounds (a : Limbs w) :
    val a < 2 ^ (w.bits * wordLen a) ∧
      (wordLen a ≠ 0 → 2 ^ (w.bits * (wordLen a - 1)) ≤ val a) := by
  induction a with
  | nil => simp [wordLen]
  | cons x xs ih =>
      have hx := x.toNat_lt
      unfold wordLen
      rw [val_cons]
      cases hlen : wordLen xs with
      | zero =>
          have hzero : val xs = 0 := by
            have h := ih.1
            rw [hlen] at h
            simpa using h
          rw [hzero]
          by_cases h0 : x = 0
          · simp [h0]
          · rw [if_neg h0]
            simp only [Nat.mul_one, Nat.mul_zero, Nat.add_zero, Nat.sub_self, pow_zero]
            exact ⟨hx, fun _ => Nat.pos_of_ne_zero (Word.toNat_ne_zero h0)⟩
      | succ n =>
          obtain ⟨hupper, hlower⟩ := ih
          rw [hlen] at hupper hlower
          have hlower := hlower (Nat.succ_ne_zero n)
          rw [Nat.add_sub_cancel] at hlower
          refine ⟨?_, fun _ => ?_⟩
          · show x.toNat + 2 ^ w.bits * val xs < 2 ^ (w.bits * (n + 1 + 1))
            rw [radix_succ w (n + 1)]
            nlinarith
          · show 2 ^ (w.bits * (n + 1)) ≤ _
            rw [radix_succ]
            nlinarith

theorem wordLen_le_iff (a : Limbs w) (n : Nat) : wordLen a ≤ n ↔ val a < 2 ^ (w.bits * n) := by
  obtain ⟨hupper, hlower⟩ := wordLen_bounds a
  constructor
  · intro h
    exact lt_of_lt_of_le hupper (radix_le w h)
  · intro h
    by_contra hcontra
    have hge := (radix_le w (by omega : n ≤ wordLen a - 1)).trans (hlower (by omega))
    omega

/-- A number of two significant words is not below the radix. -/
theorem radix_le_of_two_words {a : Limbs w} (h : 2 ≤ wordLen a) : 2 ^ w.bits ≤ val a := by
  by_contra hcontra
  have hone : wordLen a ≤ 1 := (wordLen_le_iff a 1).mpr (by rw [Nat.mul_one]; omega)
  omega

theorem wordLen_mono {a b : Limbs w} (h : val a ≤ val b) : wordLen a ≤ wordLen b :=
  (wordLen_le_iff a _).mpr (h.trans_lt (wordLen_bounds b).1)

theorem wordLen_congr {a b : Limbs w} (h : val a = val b) : wordLen a = wordLen b :=
  le_antisymm (wordLen_mono h.le) (wordLen_mono h.ge)

theorem wordLen_eq_zero_iff (a : Limbs w) : wordLen a = 0 ↔ val a = 0 := by
  rw [← Nat.le_zero, wordLen_le_iff]
  simp

theorem val_headD_tail (a : Limbs w) : (a.headD 0).toNat + 2 ^ w.bits * val a.tail = val a := by
  cases a with
  | nil => simp
  | cons x xs => simp

/-- A number of one significant word is its lowest word. -/
theorem val_eq_headD {a : Limbs w} (h : wordLen a ≤ 1) : val a = (a.headD 0).toNat := by
  have hsplit := val_headD_tail a
  rw [wordLen_le_iff, Nat.mul_one] at h
  have hzero : val a.tail = 0 := by
    by_contra hne
    have := Nat.le_mul_of_pos_right (2 ^ w.bits) (Nat.pos_of_ne_zero hne)
    omega
  rw [hzero] at hsplit
  omega

theorem val_trim (a : Limbs w) : val (trim a) = val a :=
  val_take_of_lt (wordLen_bounds a).1

theorem length_trim (a : Limbs w) : (trim a).length = wordLen a := by
  unfold trim
  rw [List.length_take]
  exact Nat.min_eq_left (wordLen_le_length a)

theorem trim_congr {a b : Limbs w} (h : val a = val b) : trim a = trim b := by
  apply val_inj
  · rw [length_trim, length_trim, wordLen_congr h]
  · rw [val_trim, val_trim, h]

theorem size_add_mul_two_pow {k x v : Nat} (hx : x < 2 ^ k) (hv : v ≠ 0) :
    Nat.size (x + 2 ^ k * v) = Nat.size v + k := by
  apply le_antisymm
  · have hlt := Nat.lt_size_self v
    rw [Nat.size_le, Nat.pow_add]
    nlinarith
  · obtain ⟨n, hn⟩ := Nat.exists_eq_succ_of_ne_zero
      (fun h => hv (Nat.size_eq_zero.mp h) : Nat.size v ≠ 0)
    have hle : 2 ^ n ≤ v := Nat.lt_size.mp (by omega)
    have hlt : n + k < Nat.size (x + 2 ^ k * v) := by
      rw [Nat.lt_size, Nat.pow_add]
      nlinarith
    omega

theorem bitLen_eq_size (a : Limbs w) : bitLen a = Nat.size (val a) := by
  induction a with
  | nil => simp [bitLen]
  | cons x xs ih =>
      unfold bitLen
      rw [val_cons]
      cases hlen : bitLen xs with
      | zero =>
          have hzero : val xs = 0 := Nat.size_eq_zero.mp (by rw [← ih, hlen])
          rw [hzero, Nat.mul_zero, Nat.add_zero]
          exact Word.bitLength_eq_size x
      | succ n =>
          have hne : val xs ≠ 0 := by
            intro h
            rw [ih, h, Nat.size_zero] at hlen
            exact absurd hlen (Nat.succ_ne_zero n).symm
          rw [size_add_mul_two_pow x.toNat_lt hne, ← ih, hlen]

/-! ## Order -/

theorem compare_words (x y : Word w) : Ord.compare x y = Ord.compare x.toNat y.toNat := by
  show compareOfLessAndEq x y = compareOfLessAndEq x.toNat y.toNat
  simp only [compareOfLessAndEq, Word.lt_iff_toNat_lt, ← Word.toNat_inj]

private theorem compare_add_mul {B x y u v : Nat} (hx : x < B) (hy : y < B) :
    Ord.compare (x + B * u) (y + B * v) = (Ord.compare u v).then (Ord.compare x y) := by
  rcases Nat.lt_trichotomy u v with h | h | h
  · rw [Nat.compare_eq_lt.mpr h]
    show Ord.compare _ _ = .lt
    rw [Nat.compare_eq_lt]
    nlinarith
  · subst h
    rw [Nat.compare_eq_eq.mpr rfl, Ordering.eq_then]
    rcases Nat.lt_trichotomy x y with hxy | hxy | hxy
    · rw [Nat.compare_eq_lt.mpr hxy, Nat.compare_eq_lt]
      omega
    · rw [hxy, Nat.compare_eq_eq.mpr rfl, Nat.compare_eq_eq.mpr rfl]
    · rw [Nat.compare_eq_gt.mpr hxy, Nat.compare_eq_gt]
      omega
  · rw [Nat.compare_eq_gt.mpr h]
    show Ord.compare _ _ = .gt
    rw [Nat.compare_eq_gt]
    nlinarith

/-- The order of two sequences of any lengths is the order of their numbers. -/
theorem compare_eq (a b : Limbs w) : compare a b = Ord.compare (val a) (val b) := by
  induction a generalizing b with
  | nil =>
      unfold compare
      rw [val_nil]
      split
      · next h => rw [isZero_iff.mp h, Nat.compare_eq_eq.mpr rfl]
      · next h =>
          have hne : val b ≠ 0 := fun h0 => h (isZero_iff.mpr h0)
          rw [Nat.compare_eq_lt.mpr (Nat.pos_of_ne_zero hne)]
  | cons x xs ih =>
      cases b with
      | nil =>
          unfold compare
          rw [val_nil]
          split
          · next h => rw [isZero_iff.mp h, Nat.compare_eq_eq.mpr rfl]
          · next h =>
              have hne : val (x :: xs) ≠ 0 := fun h0 => h (isZero_iff.mpr h0)
              rw [Nat.compare_eq_gt.mpr (Nat.pos_of_ne_zero hne)]
      | cons y ys =>
          unfold compare
          rw [val_cons, val_cons, compare_add_mul x.toNat_lt y.toNat_lt, ih,
            compare_words]

theorem less_iff (a b : Limbs w) : less a b = true ↔ val a < val b := by
  unfold less
  rw [compare_eq]
  rcases Nat.lt_trichotomy (val a) (val b) with h | h | h
  · simp [Nat.compare_eq_lt.mpr h, h]
  · simp [h]
  · simp [Nat.compare_eq_gt.mpr h, h.le]

/-! ## Bits -/

theorem trailingZeros_spec {a : Limbs w} (ha : val a ≠ 0) :
    2 ^ trailingZeros a ∣ val a ∧ val a / 2 ^ trailingZeros a % 2 = 1 := by
  induction a with
  | nil => simp at ha
  | cons x xs ih =>
      unfold trailingZeros
      rw [val_cons]
      by_cases hx : x = 0
      · have hxs : val xs ≠ 0 := by
          intro h
          rw [val_cons, hx, h] at ha
          simp at ha
        have hzero := (isZero_eq_false_iff xs).mpr hxs
        obtain ⟨hdvd, hodd⟩ := ih hxs
        simp only [hx, if_true, hzero, Word.toNat_zero, Nat.zero_add, Nat.pow_add,
          Bool.false_eq_true, if_false]
        refine ⟨Nat.mul_dvd_mul_left _ hdvd, ?_⟩
        rw [Nat.mul_div_mul_left _ _ (Nat.two_pow_pos w.bits)]
        exact hodd
      · obtain ⟨hlt, hdvd, hodd⟩ := Word.trailingZeros_spec (Word.toNat_ne_zero hx)
        -- the higher words only add an even multiple of the power of two
        have hradix : 2 ^ w.bits = 2 ^ x.trailingZeros * (2 * 2 ^ (w.bits - x.trailingZeros - 1)) := by
          rw [← Nat.pow_succ', ← Nat.pow_add]
          congr 1
          omega
        rw [if_neg hx]
        constructor
        · exact Nat.dvd_add hdvd (Dvd.dvd.mul_right ⟨_, hradix⟩ _)
        · rw [hradix, Nat.mul_assoc, Nat.add_mul_div_left _ _ (Nat.two_pow_pos _), Nat.mul_assoc,
            Nat.add_mul_mod_self_left]
          exact hodd

/-! ## Small additions and subtractions -/

/-- Adding a word to a number that has room for the sum carries nothing out. -/
theorem val_addWord_of_lt {a : Limbs w} {x : Word w}
    (h : val a + x.toNat < 2 ^ (w.bits * a.length)) :
    val (addWord a x).1 = val a + x.toNat ∧ (addWord a x).2 = 0 := by
  have hsum := val_addWord a x
  have hcarry : (addWord a x).2.toNat = 0 := by
    by_contra hne
    have := Nat.le_mul_of_pos_right (2 ^ (w.bits * a.length)) (Nat.pos_of_ne_zero hne)
    omega
  rw [hcarry, Nat.mul_zero] at hsum
  exact ⟨by omega, Word.ext (by rw [hcarry, Word.toNat_zero])⟩

/-- Adding two numbers that have room for the sum carries nothing out. -/
theorem val_addCarry_of_lt {a b : Limbs w} (hlength : a.length = b.length)
    (h : val a + val b < 2 ^ (w.bits * a.length)) :
    val (addCarry a b false).1 = val a + val b ∧ (addCarry a b false).2 = false := by
  have hsum := val_addCarry hlength false
  rw [Bool.toNat_false, Nat.add_zero] at hsum
  cases hcarry : (addCarry a b false).2 with
  | true => rw [hcarry, Bool.toNat_true] at hsum; omega
  | false =>
      rw [hcarry, Bool.toNat_false, Nat.mul_zero, Nat.add_zero] at hsum
      exact ⟨hsum, rfl⟩

/-- Adding `m` back to what a subtraction of `m` has wrapped around to. -/
theorem val_addCarry_back {d m : Limbs w} (hlength : d.length = m.length) {x : Nat}
    (h : val d + val m = x + 2 ^ (w.bits * m.length)) : val (addCarry d m false).1 = x := by
  have hsum := val_addCarry hlength false
  have hlt := val_lt (addCarry d m false).1
  rw [length_addCarry hlength, hlength] at hlt
  rw [hlength, Bool.toNat_false, Nat.add_zero, h] at hsum
  cases hcarry : (addCarry d m false).2 with
  | true => rw [hcarry, Bool.toNat_true] at hsum; omega
  | false => rw [hcarry, Bool.toNat_false] at hsum; omega

/-- Subtracting from a number at least as large borrows nothing. -/
theorem val_subBorrow_of_le {a b : Limbs w} (hlength : a.length = b.length)
    (h : val b ≤ val a) :
    val (subBorrow a b false).1 = val a - val b ∧ (subBorrow a b false).2 = false := by
  have hdiff := val_subBorrow hlength false
  have hlt := val_lt (subBorrow a b false).1
  rw [length_subBorrow hlength] at hlt
  rw [Bool.toNat_false, Nat.add_zero] at hdiff
  cases hborrow : (subBorrow a b false).2 with
  | true => rw [hborrow, Bool.toNat_true] at hdiff; omega
  | false =>
      rw [hborrow, Bool.toNat_false] at hdiff
      exact ⟨by omega, rfl⟩

@[simp] theorem length_subWord (a : Limbs w) (x : Word w) :
    (subWord a x).1.length = a.length := by
  induction a generalizing x with
  | nil => rfl
  | cons y ys ih => simp [subWord, ih]

private theorem toNat_sub_ofBool (x y : Word w) :
    (x - y).toNat + y.toNat =
      x.toNat + 2 ^ w.bits * (Word.ofBool (x < y) : Word w).toNat := by
  have hx := x.toNat_lt
  have hy := y.toNat_lt
  rw [Word.toNat_sub, Word.toNat_ofBool]
  by_cases h : x < y
  · have hlt := Word.lt_iff_toNat_lt.mp h
    rw [Nat.mod_eq_of_lt (by omega)]
    simp [h]
    omega
  · have hge : ¬ x.toNat < y.toNat := fun hlt => h (Word.lt_iff_toNat_lt.mpr hlt)
    rw [Nat.mod_eq_sub_mod (by omega), Nat.mod_eq_of_lt (by omega)]
    simp [h]
    omega

theorem val_subWord (a : Limbs w) (x : Word w) :
    val (subWord a x).1 + x.toNat =
      val a + 2 ^ (w.bits * a.length) * (subWord a x).2.toNat := by
  induction a generalizing x with
  | nil => simp [subWord]
  | cons y ys ih =>
      have hstep := toNat_sub_ofBool y x
      have hrest := ih (Word.ofBool (y < x))
      simp only [subWord, val_cons, List.length_cons, radix_succ]
      generalize 2 ^ w.bits = B at *
      have hscaled : B * (val (subWord ys (Word.ofBool (y < x))).1 +
          (Word.ofBool (y < x) : Word w).toNat) = B * (val ys +
          2 ^ (w.bits * ys.length) * (subWord ys (Word.ofBool (y < x))).2.toNat) := by rw [hrest]
      simp only [Nat.mul_add, ← Nat.mul_assoc] at hscaled ⊢
      omega

/-- Subtracting a word from a number at least as large borrows nothing. -/
theorem val_subWord_of_le {a : Limbs w} {x : Word w} (h : x.toNat ≤ val a) :
    val (subWord a x).1 = val a - x.toNat := by
  have hdiff := val_subWord a x
  have hlt := val_lt (subWord a x).1
  rw [length_subWord] at hlt
  have hborrow : (subWord a x).2.toNat = 0 := by
    by_contra hne
    have := Nat.le_mul_of_pos_right (2 ^ (w.bits * a.length)) (Nat.pos_of_ne_zero hne)
    omega
  rw [hborrow, Nat.mul_zero] at hdiff
  omega

/-- One subtraction of `m` from a number that has `top` above its words and exceeds
them by less than `m`.  It borrows out of the whole number exactly if the number is
below `m`, and otherwise leaves what is above `m`. -/
theorem subBorrow_once {a m : Limbs w} (hlength : a.length = m.length) {top : Nat}
    (hlt : val a + 2 ^ (w.bits * m.length) * top < 2 ^ (w.bits * m.length) + val m) :
    ((subBorrow a m false).2 = true ∧ top = 0 ↔
      val a + 2 ^ (w.bits * m.length) * top < val m) ∧
    (val m ≤ val a + 2 ^ (w.bits * m.length) * top →
      val (subBorrow a m false).1 = val a + 2 ^ (w.bits * m.length) * top - val m) := by
  have hdiff := val_subBorrow hlength false
  have hdlt := val_lt (subBorrow a m false).1
  have hm := val_lt m
  rw [length_subBorrow hlength, hlength] at hdlt
  rw [hlength, Bool.toNat_false, Nat.add_zero] at hdiff
  generalize subBorrow a m false = d at *
  generalize 2 ^ (w.bits * m.length) = M at *
  -- the number reaches at most one bit beyond its words
  have htop : top < 2 := by
    have hscaled : M * top < M * 2 := by omega
    exact Nat.lt_of_mul_lt_mul_left hscaled
  rcases (by omega : top = 0 ∨ top = 1) with rfl | rfl
  · cases hborrow : d.2 with
    | true =>
        rw [hborrow, Bool.toNat_true] at hdiff
        exact ⟨⟨fun _ => by omega, fun _ => ⟨rfl, rfl⟩⟩, fun hle => by omega⟩
    | false =>
        rw [hborrow, Bool.toNat_false] at hdiff
        exact ⟨⟨fun h => absurd h.1 (by simp), fun h => by omega⟩, fun hle => by omega⟩
  · cases hborrow : d.2 with
    | true =>
        rw [hborrow, Bool.toNat_true] at hdiff
        exact ⟨⟨fun h => absurd h.2 (by simp), fun h => by omega⟩, fun hle => by omega⟩
    | false =>
        rw [hborrow, Bool.toNat_false] at hdiff
        omega

end CryptoPrimes.Limbs
