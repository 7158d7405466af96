import Mathlib.Data.Nat.ModEq
import CryptoPrimes.Limbs.Shift
import CryptoPrimes.Proofs.Limbs.Value

/-!
# Shifts as products and quotients

A shift below one word is exact once the bits it loses are counted: to the left
they are the weight above the top word (`val_shlWithin`), to the right they are
the remainder (`val_shrWithin`).  A shift by any distance is then a quotient,
`val_shiftRight`, and what it loses is what a truncation keeps (`val_trimBits`).
-/

namespace CryptoPrimes.Limbs

variable {w : Width}

/-- The radix splits at any place inside a word. -/
theorem radix_split {n : Nat} (hn : n ≤ w.bits) : 2 ^ w.bits = 2 ^ (w.bits - n) * 2 ^ n := by
  rw [← Nat.pow_add, Nat.sub_add_cancel hn]

/-! ## To the left -/

theorem length_shlBits (n : Nat) (a : Limbs w) (low : Word w) :
    (shlBits n a low).1.length = a.length := by
  induction a generalizing low with
  | nil => rfl
  | cons x xs ih => simp [shlBits, ih]

theorem val_shlBits {n : Nat} (hpos : 0 < n) (hn : n < w.bits) (a : Limbs w) {low : Word w}
    (hlow : low.toNat < 2 ^ n) :
    val (shlBits n a low).1 + 2 ^ (w.bits * a.length) * (shlBits n a low).2.toNat =
        val a * 2 ^ n + low.toNat ∧ (shlBits n a low).2.toNat < 2 ^ n := by
  induction a generalizing low with
  | nil => simp [shlBits, hlow]
  | cons x xs ih =>
      have hsplit := radix_split hn.le
      have hcarry : (x >>> (w.bits - n)).toNat = x.toNat / 2 ^ (w.bits - n) :=
        Word.toNat_shiftRight x (by have := w.bits_le; omega)
      have hsmall : (x >>> (w.bits - n)).toNat < 2 ^ n := by
        rw [hcarry, Nat.div_lt_iff_lt_mul (Nat.two_pow_pos _), Nat.mul_comm, ← hsplit]
        exact x.toNat_lt
      obtain ⟨hval, hlt⟩ := ih hsmall
      refine ⟨?_, hlt⟩
      have hdiv := Nat.mod_add_div x.toNat (2 ^ (w.bits - n))
      rw [hcarry] at hval
      simp only [shlBits, val_cons, List.length_cons, radix_succ, Word.toNat_shiftLeft_or hn hlow]
      calc x.toNat % 2 ^ (w.bits - n) * 2 ^ n + low.toNat +
            2 ^ w.bits * val (shlBits n xs (x >>> (w.bits - n))).1 +
            2 ^ w.bits * 2 ^ (w.bits * xs.length) *
              (shlBits n xs (x >>> (w.bits - n))).2.toNat
          = x.toNat % 2 ^ (w.bits - n) * 2 ^ n + low.toNat + 2 ^ w.bits *
              (val (shlBits n xs (x >>> (w.bits - n))).1 + 2 ^ (w.bits * xs.length) *
                (shlBits n xs (x >>> (w.bits - n))).2.toNat) := by ring
        _ = x.toNat % 2 ^ (w.bits - n) * 2 ^ n + low.toNat + 2 ^ (w.bits - n) * 2 ^ n *
              (val xs * 2 ^ n + x.toNat / 2 ^ (w.bits - n)) := by rw [hval, ← hsplit]
        _ = (x.toNat % 2 ^ (w.bits - n) + 2 ^ (w.bits - n) * (x.toNat / 2 ^ (w.bits - n))) * 2 ^ n +
              2 ^ (w.bits - n) * 2 ^ n * val xs * 2 ^ n + low.toNat := by ring
        _ = (x.toNat + 2 ^ w.bits * val xs) * 2 ^ n + low.toNat := by rw [hdiv, ← hsplit]; ring

@[simp] theorem length_shlWithin (a : Limbs w) (n : Nat) :
    (shlWithin a n).1.length = a.length := by
  unfold shlWithin
  split
  · rfl
  · exact length_shlBits _ _ _

/-- Nothing is lost: the bits moved out have the weight of one more word. -/
theorem val_shlWithin (a : Limbs w) {n : Nat} (hn : n < w.bits) :
    val (shlWithin a n).1 + 2 ^ (w.bits * a.length) * (shlWithin a n).2.toNat = val a * 2 ^ n ∧
      (shlWithin a n).2.toNat < 2 ^ n := by
  unfold shlWithin
  split
  · next h => simp [h]
  · next h =>
      have hzero : (0 : Word w).toNat < 2 ^ n := by simp
      simpa using val_shlBits (Nat.pos_of_ne_zero h) hn a hzero

/-- A shift that fits its words loses nothing. -/
theorem lost_shlWithin_of_lt {a : Limbs w} {n : Nat} (hn : n < w.bits)
    (hfit : val a * 2 ^ n < 2 ^ (w.bits * a.length)) : (shlWithin a n).2 = 0 := by
  obtain ⟨hval, -⟩ := val_shlWithin a hn
  apply Word.ext
  rw [Word.toNat_zero]
  by_contra hne
  have := Nat.le_mul_of_pos_right (2 ^ (w.bits * a.length)) (Nat.pos_of_ne_zero hne)
  omega

/-- A shift that fits its words is a product. -/
theorem val_shlWithin_of_lt {a : Limbs w} {n : Nat} (hn : n < w.bits)
    (hfit : val a * 2 ^ n < 2 ^ (w.bits * a.length)) :
    val (shlWithin a n).1 = val a * 2 ^ n := by
  obtain ⟨hval, -⟩ := val_shlWithin a hn
  rw [lost_shlWithin_of_lt hn hfit, Word.toNat_zero] at hval
  exact hval

theorem val_take (a : Limbs w) {n : Nat} (hn : n ≤ a.length) :
    val (a.take n) = val a % 2 ^ (w.bits * n) := by
  rw [← val_take_add_drop a hn, Nat.add_mul_mod_self_left, Nat.mod_eq_of_lt (val_take_lt a n)]

theorem length_shiftLeft (a : Limbs w) (distance : Nat) :
    (shiftLeft a distance).length = a.length := by
  rw [shiftLeft, length_shlWithin, List.length_append, List.length_take, length_zeros]
  generalize distance / w.bits = words
  omega

/-- What is left of the words of a shift are the low ones of the product. -/
theorem val_shlWithin_mod (a : Limbs w) {n : Nat} (hn : n < w.bits) :
    val (shlWithin a n).1 = val a * 2 ^ n % 2 ^ (w.bits * a.length) := by
  have hlt := val_lt (shlWithin a n).1
  rw [length_shlWithin] at hlt
  rw [← (val_shlWithin a hn).1, Nat.add_mul_mod_self_left, Nat.mod_eq_of_lt hlt]

/-- What they lose is the rest of it. -/
theorem lost_shlWithin (a : Limbs w) {n : Nat} (hn : n < w.bits) :
    (shlWithin a n).2.toNat = val a * 2 ^ n / 2 ^ (w.bits * a.length) := by
  have hlt := val_lt (shlWithin a n).1
  rw [length_shlWithin] at hlt
  rw [← (val_shlWithin a hn).1, Nat.add_mul_div_left _ _ (radix_pos w _), Nat.div_eq_of_lt hlt,
    Nat.zero_add]

/-- A left shift by any distance is a product, without what does not fit. -/
theorem val_shiftLeft (a : Limbs w) (distance : Nat) :
    val (shiftLeft a distance) = val a * 2 ^ distance % 2 ^ (w.bits * a.length) := by
  have hdistance := Nat.div_add_mod distance w.bits
  generalize hwords : min (distance / w.bits) a.length = words
  have hle : words ≤ a.length := by omega
  have hlength : (zeros words ++ a.take (a.length - words)).length = a.length := by
    rw [List.length_append, length_zeros, List.length_take]
    omega
  -- the words that are moved up are the low ones of the product with their places
  have hmoved : val (zeros words ++ a.take (a.length - words)) =
      2 ^ (w.bits * words) * val a % 2 ^ (w.bits * a.length) := by
    have hplaces : w.bits * a.length = w.bits * words + w.bits * (a.length - words) := by
      rw [← Nat.mul_add, Nat.add_sub_cancel' hle]
    rw [val_append, val_zeros, length_zeros, Nat.zero_add, val_take a (Nat.sub_le _ _), hplaces,
      Nat.pow_add, Nat.mul_mod_mul_left]
  simp only [shiftLeft, hwords]
  rw [val_shlWithin_mod _ (Nat.mod_lt _ w.bits_pos), hlength, hmoved, Nat.mod_mul_mod]
  rcases Nat.le_total (distance / w.bits) a.length with h | h
  · rw [← hwords, Nat.min_eq_left h, Nat.mul_comm (2 ^ _), Nat.mul_assoc, ← Nat.pow_add, hdistance]
  · have hall : 2 ^ (w.bits * a.length) ∣ 2 ^ distance :=
      Nat.pow_dvd_pow 2 ((Nat.mul_le_mul_left _ h).trans (by omega))
    rw [← hwords, Nat.min_eq_right h, Nat.mul_assoc, Nat.mul_mod_right,
      Nat.mod_eq_zero_of_dvd (Dvd.dvd.mul_left hall _)]

/-! ## To the right -/

theorem length_shrBits (n : Nat) (a : Limbs w) : (shrBits n a).1.length = a.length := by
  induction a with
  | nil => rfl
  | cons x xs ih => simp [shrBits, ih]

theorem val_shrBits {n : Nat} (hpos : 0 < n) (hn : n < w.bits) (a : Limbs w) :
    val (shrBits n a).1 = val a / 2 ^ n ∧
      (shrBits n a).2.toNat = val a % 2 ^ n * 2 ^ (w.bits - n) := by
  induction a with
  | nil => simp [shrBits]
  | cons x xs ih =>
      obtain ⟨hquot, hrem⟩ := ih
      have hsplit := radix_split hn.le
      have hback : w.bits - n < 64 := by have := w.bits_le; omega
      have hhigh : x.toNat / 2 ^ n < 2 ^ (w.bits - n) := by
        rw [Nat.div_lt_iff_lt_mul (Nat.two_pow_pos _), ← hsplit]
        exact x.toNat_lt
      have hdvd : 2 ^ n ∣ 2 ^ w.bits * val xs := Dvd.dvd.mul_right ⟨_, by rw [hsplit, Nat.mul_comm]⟩ _
      have hword : ((x >>> n) ||| (shrBits n xs).2).toNat =
          val xs % 2 ^ n * 2 ^ (w.bits - n) + x.toNat / 2 ^ n := by
        rw [Word.toNat_or, Word.toNat_shiftRight x (Word.bits_lt_register w hn), hrem, Nat.or_comm,
          Nat.mul_comm, ← Nat.two_pow_add_eq_or_of_lt hhigh]
      constructor
      · have hdiv := Nat.mod_add_div (val xs) (2 ^ n)
        unfold shrBits
        rw [val_cons, val_cons, hword, hquot, Nat.add_div_of_dvd_left hdvd]
        calc val xs % 2 ^ n * 2 ^ (w.bits - n) + x.toNat / 2 ^ n + 2 ^ w.bits * (val xs / 2 ^ n)
            = x.toNat / 2 ^ n +
                2 ^ (w.bits - n) * (val xs % 2 ^ n + 2 ^ n * (val xs / 2 ^ n)) := by
              rw [hsplit]; ring
          _ = x.toNat / 2 ^ n + 2 ^ (w.bits - n) * val xs := by rw [hdiv]
          _ = x.toNat / 2 ^ n + 2 ^ w.bits * val xs / 2 ^ n := by
              rw [hsplit, Nat.mul_right_comm, Nat.mul_div_cancel _ (Nat.two_pow_pos n)]
      · unfold shrBits
        rw [Word.toNat_shiftLeft x hback, val_cons, Nat.add_mod,
          Nat.mod_eq_zero_of_dvd hdvd, Nat.add_zero, Nat.mod_mod, hsplit,
          Nat.mul_comm (2 ^ (w.bits - n)), Nat.mul_mod_mul_right]

@[simp] theorem length_shrWithin (a : Limbs w) (n : Nat) :
    (shrWithin a n).1.length = a.length := by
  unfold shrWithin
  split
  · rfl
  · exact length_shrBits _ _

theorem val_shrWithin (a : Limbs w) {n : Nat} (hn : n < w.bits) :
    val (shrWithin a n).1 = val a / 2 ^ n := by
  unfold shrWithin
  split
  · next h => simp [h]
  · next h => exact (val_shrBits (Nat.pos_of_ne_zero h) hn a).1

/-- What is lost to the right is the remainder, at the high end of a word. -/
theorem lost_shrWithin (a : Limbs w) {n : Nat} (hn : n < w.bits) :
    (shrWithin a n).2.toNat = val a % 2 ^ n * 2 ^ (w.bits - n) := by
  unfold shrWithin
  split
  · next h => rw [h, Nat.pow_zero, Nat.mod_one, Nat.zero_mul, Word.toNat_zero]
  · next h => exact (val_shrBits (Nat.pos_of_ne_zero h) hn a).2

theorem val_drop (a : Limbs w) {n : Nat} (hn : n ≤ a.length) :
    val (a.drop n) = val a / 2 ^ (w.bits * n) := by
  have hsplit := val_take_add_drop a hn
  have hlow := val_take_lt a n
  rw [← hsplit, Nat.add_mul_div_left _ _ (radix_pos w n), Nat.div_eq_of_lt hlow, Nat.zero_add]

/-- A right shift by any distance is a quotient. -/
theorem val_shiftRight (a : Limbs w) (distance : Nat) :
    val (shiftRight a distance) = val a / 2 ^ distance := by
  have hdistance := Nat.div_add_mod distance w.bits
  simp only [shiftRight]
  rw [val_shrWithin _ (Nat.mod_lt _ w.bits_pos), val_append, val_zeros, Nat.mul_zero,
    Nat.add_zero, val_drop a (Nat.min_le_right _ _), Nat.div_div_eq_div_mul, ← Nat.pow_add]
  rcases Nat.le_total (distance / w.bits) a.length with h | h
  · rw [Nat.min_eq_left h, hdistance]
  · have hlt := val_lt a
    have hle : w.bits * a.length ≤ distance :=
      (Nat.mul_le_mul_left _ h).trans (by omega)
    rw [Nat.min_eq_right h, Nat.div_eq_of_lt, Nat.div_eq_of_lt]
    · exact lt_of_lt_of_le hlt (Nat.pow_le_pow_right (by decide) hle)
    · exact lt_of_lt_of_le hlt (Nat.pow_le_pow_right (by decide) (Nat.le_add_right _ _))

/-! ## Truncation -/

@[simp] theorem length_trimBits (a : Limbs w) (bits : Nat) :
    (trimBits a bits).length = a.length := by
  induction a generalizing bits with
  | nil => rfl
  | cons x xs ih =>
      unfold trimBits
      split
      · rw [List.length_cons, List.length_cons, ih]
      · rw [List.length_cons, List.length_cons, length_zeros]

/-- Clearing the bits from position `bits` on is reduction modulo `2 ^ bits`. -/
theorem val_trimBits (a : Limbs w) (bits : Nat) : val (trimBits a bits) = val a % 2 ^ bits := by
  induction a generalizing bits with
  | nil => rw [trimBits, val_nil, Nat.zero_mod]
  | cons x xs ih =>
      have hx := x.toNat_lt
      rw [trimBits, val_cons]
      by_cases hword : w.bits ≤ bits
      · have hsplit : 2 ^ bits = 2 ^ w.bits * 2 ^ (bits - w.bits) := by
          rw [← Nat.pow_add, Nat.add_sub_cancel' hword]
        have hlow : (x.toNat + 2 ^ w.bits * val xs) % 2 ^ w.bits = x.toNat := by
          rw [Nat.add_mul_mod_self_left, Nat.mod_eq_of_lt hx]
        have hhigh : (x.toNat + 2 ^ w.bits * val xs) / 2 ^ w.bits = val xs := by
          rw [Nat.add_mul_div_left _ _ (Nat.two_pow_pos _), Nat.div_eq_of_lt hx, Nat.zero_add]
        rw [if_pos hword, val_cons, ih, hsplit, Nat.mod_mul, hlow, hhigh]
      · have hbits : bits < w.bits := Nat.lt_of_not_le hword
        have hmask : (((1 : Word w) <<< bits) - 1).toNat = 2 ^ bits - 1 := by
          have hshift := Word.toNat_one_shiftLeft hbits
          rw [Word.toNat_sub_of_le (by rw [hshift, Word.toNat_one]; exact Nat.one_le_two_pow),
            hshift, Word.toNat_one]
        have hdvd : 2 ^ bits ∣ 2 ^ w.bits * val xs :=
          Dvd.dvd.mul_right (Nat.pow_dvd_pow 2 hbits.le) _
        rw [if_neg hword, val_cons, val_zeros, Nat.mul_zero, Nat.add_zero, Word.toNat_and, hmask,
          Nat.and_two_pow_sub_one_eq_mod, Nat.add_mod, Nat.mod_eq_zero_of_dvd hdvd, Nat.add_zero,
          Nat.mod_mod]

/-- A number of that many bits loses nothing. -/
theorem trimBits_of_lt {a : Limbs w} {bits : Nat} (h : val a < 2 ^ bits) : trimBits a bits = a := by
  apply val_inj (length_trimBits a bits)
  rw [val_trimBits, Nat.mod_eq_of_lt h]

end CryptoPrimes.Limbs
