import CryptoPrimes.Proofs.Limbs.Value

/-!
# Single bits of numbers

Bit `i` of a number lies in the word `i / w.bits`, at the place `i % w.bits` there.
Reading it is reading the bit of the value (`testBit_eq`).  Writing it changes the
value at this bit and nowhere else (`setBit_spec`): a mask with one bit set is joined
to the word, or its complement is intersected with it, and the word is put back.

Below, `testBit_cons` says how the bits of a number split into those of its lowest
word and those of the rest; everything else follows the words with it.
-/

namespace CryptoPrimes.Limbs

variable {w : Width}

/-! ## One word -/

theorem testBit_putBit (x : Word w) {i : Nat} (hi : i < w.bits) (value : Bool) (k : Nat) :
    (putBit x i value).toNat.testBit k = if k = i then value else x.toNat.testBit k := by
  have hmask := Word.toNat_one_shiftLeft hi
  unfold putBit
  cases value with
  | true =>
      simp only [if_true, Word.toNat_or, Nat.testBit_or, hmask, Nat.testBit_two_pow]
      by_cases hk : k = i
      · simp [hk]
      · simp [hk, Ne.symm hk]
  | false =>
      simp only [Bool.false_eq_true, if_false, Word.toNat_and, Nat.testBit_and,
        Word.testBit_complement, hmask, Nat.testBit_two_pow]
      by_cases hk : k = i
      · simp [hk]
      · rcases Nat.lt_or_ge k w.bits with hin | hout
        · simp [hk, Ne.symm hk, hin]
        · simp [hk, Word.testBit_of_bits_le x hout]

/-! ## All words -/

/-- The bits of the lowest word come first. -/
theorem testBit_cons (x : Word w) (xs : Limbs w) (k : Nat) :
    (val (x :: xs)).testBit k =
      if k < w.bits then x.toNat.testBit k else (val xs).testBit (k - w.bits) := by
  rw [val_cons, Nat.add_comm]
  exact Nat.testBit_two_pow_mul_add _ x.toNat_lt k

theorem testBit_eq (a : Limbs w) (i : Nat) : testBit a i = (val a).testBit i := by
  induction a generalizing i with
  | nil => simp [testBit]
  | cons x xs ih =>
      rw [testBit_cons]
      unfold testBit at ih ⊢
      by_cases hi : i < w.bits
      · rw [Nat.div_eq_of_lt hi, Nat.mod_eq_of_lt hi, if_pos hi]
        exact Word.testBit_eq x i
      · have hle : w.bits ≤ i := not_lt.mp hi
        rw [Nat.div_eq_sub_div w.bits_pos hle, List.getElem?_cons_succ, Nat.mod_eq_sub_mod hle,
          if_neg hi]
        exact ih (i - w.bits)

/-- A bit that is put into one of the words is put into the number. -/
theorem testBit_modify {a : Limbs w} {i j : Nat} (hi : i < a.length) (hj : j < w.bits)
    (value : Bool) (k : Nat) :
    (val (a.modify i fun x => putBit x j value)).testBit k =
      if k = w.bits * i + j then value else (val a).testBit k := by
  induction a generalizing i k with
  | nil => simp at hi
  | cons x xs ih =>
      cases i with
      | zero =>
          rw [List.modify_zero_cons, testBit_cons, testBit_cons, testBit_putBit x hj]
          by_cases hk : k < w.bits
          · simp [hk]
          · rw [if_neg hk, if_neg hk, if_neg (by omega)]
      | succ i =>
          have hi : i < xs.length := Nat.lt_of_succ_lt_succ hi
          rw [List.modify_succ_cons, testBit_cons, testBit_cons, ih hi, Nat.mul_succ]
          by_cases hk : k < w.bits
          · rw [if_pos hk, if_pos hk, if_neg (by omega)]
          · have hplace : k - w.bits = w.bits * i + j ↔ k = w.bits * i + w.bits + j := by omega
            simp only [if_neg hk, hplace]

/-- A bit that lies within the words takes the value it is given, and no other bit
changes. -/
theorem setBit_spec {a : Limbs w} {i : Nat} (hi : i < w.bits * a.length) (value : Bool) :
    ∃ b : Limbs w, setBit a i value = .ok b ∧ b.length = a.length ∧
      ∀ k, (val b).testBit k = if k = i then value else (val a).testBit k := by
  have hword : i / w.bits < a.length := Nat.div_lt_of_lt_mul hi
  refine ⟨a.modify (i / w.bits) fun x => putBit x (i % w.bits) value, ?_, List.length_modify .., ?_⟩
  · rw [setBit, Checked.require_of hword]
    rfl
  · intro k
    rw [testBit_modify hword (Nat.mod_lt i w.bits_pos), Nat.div_add_mod]

/-- A single bit set in zero words. -/
theorem setBit_zeros {n bit : Nat} (h : bit < n * w.bits) :
    ∃ a : Limbs w, setBit (zeros n) bit true = .ok a ∧ a.length = n ∧ val a = 2 ^ bit := by
  obtain ⟨a, hset, hlength, hbits⟩ := setBit_spec (a := (zeros n : Limbs w)) (i := bit)
    (by rwa [length_zeros, Nat.mul_comm]) true
  refine ⟨a, hset, hlength.trans (length_zeros n), Nat.eq_of_testBit_eq fun k => ?_⟩
  rw [hbits, val_zeros, Nat.zero_testBit, Nat.testBit_two_pow]
  by_cases hk : k = bit
  · simp [hk]
  · simp [hk, Ne.symm hk]

end CryptoPrimes.Limbs
