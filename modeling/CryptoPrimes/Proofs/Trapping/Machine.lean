import CryptoPrimes.Proofs.Limbs.Value
import CryptoPrimes.Trapping.Machine

/-!
# Operations that do not trap

Each operation of the machine has a result under the condition it checks; the
conditions are stated in natural numbers.  A position in a sequence of words is
found by what stands before it: `a ++ x :: c` has the word `x` at the position
`a.length`, and `a ++ (b ++ c)` the words `b` from there on.
-/

namespace CryptoPrimes

/-- A check that was passed holds. -/
theorem Checked.of_require {p : Prop} [Decidable p] {fault : Fault} {u : Unit}
    (h : require p fault = .ok u) : p := by
  by_contra hp
  rw [require, if_neg hp] at h
  cases h

namespace Trapping

open Limbs

variable {w : Width}

/-! ## Sizes and words -/

theorem checkedSize_eq {n : Nat} (h : n < sizeLimit) : checkedSize n = .ok n := if_pos h

theorem difference_eq {m n : Nat} (h : n ≤ m) : difference m n = .ok (m - n) := by
  rw [difference, Checked.require_of h]
  rfl

theorem singleWord_eq {n : Nat} (h : n < 2 ^ w.bits) : singleWord w n = .ok n := by
  rw [singleWord, Checked.require_of h]
  rfl

theorem doubleWord_eq {n : Nat} (h : n < 2 ^ w.bits * 2 ^ w.bits) : doubleWord w n = .ok n := by
  rw [doubleWord, Checked.require_of h]
  rfl

theorem remainder_eq {m : Nat} (n : Nat) (h : m ≠ 0) : remainder n m = .ok (n % m) := by
  rw [remainder, Checked.require_of h]
  rfl

/-- A product of two words fits a double word, and leaves room for two more
words. -/
theorem product_lt {B x y u v : Nat} (hx : x < B) (hy : y < B) (hu : u < B) (hv : v < B) :
    x * y + u + v < B * B := by
  have h := Nat.mul_le_mul (Nat.le_sub_one_of_lt hx) (Nat.le_sub_one_of_lt hy)
  obtain ⟨b, rfl⟩ : ∃ b, B = b + 1 := ⟨B - 1, by omega⟩
  rw [Nat.add_sub_cancel] at h
  rw [Nat.add_mul, Nat.mul_add, Nat.mul_one, Nat.one_mul]
  omega

/-- A double word, from its high and its low word. -/
theorem double_lt {B high low : Nat} (hhigh : high < B) (hlow : low < B) :
    high * B + low < B * B := by
  calc high * B + low < (high + 1) * B := by rw [Nat.add_mul]; omega
    _ ≤ B * B := Nat.mul_le_mul_right _ hhigh

theorem wordSum_eq {x y : Word w} (h : x.toNat + y.toNat < 2 ^ w.bits) :
    wordSum x y = .ok (x + y) := by
  have hs := Word.toNat_addCarry x y false
  have hcarry : (Word.addCarry x y false).2 = false := by
    cases hc : (Word.addCarry x y false).2 with
    | false => rfl
    | true =>
        rw [hc, Bool.toNat_true, Nat.mul_one, Bool.toNat_false] at hs
        omega
  rw [wordSum, Checked.require_of hcarry]
  exact congrArg Except.ok (Word.add_ofBool_false (x + y))

theorem wordDifference_eq {x y : Word w} (h : y.toNat ≤ x.toNat) :
    wordDifference x y = .ok (x - y) := by
  have hd := Word.toNat_subBorrow x y false
  have hlt := (Word.subBorrow x y false).1.toNat_lt
  have hborrow : (Word.subBorrow x y false).2 = false := by
    cases hb : (Word.subBorrow x y false).2 with
    | false => rfl
    | true =>
        rw [hb, Bool.toNat_true, Nat.mul_one, Bool.toNat_false] at hd
        omega
  rw [wordDifference, Checked.require_of hborrow]
  exact congrArg Except.ok (Word.sub_ofBool_false (x - y))

/-- The sum of a double word and a word that fits a double word. -/
theorem doubleSum_eq {d : Word w × Word w} {x : Word w}
    (h : d.1.toNat + 2 ^ w.bits * d.2.toNat + x.toNat < 2 ^ w.bits * 2 ^ w.bits) :
    ∃ e, doubleSum d x = .ok e ∧
      e.1.toNat + 2 ^ w.bits * e.2.toNat = d.1.toNat + 2 ^ w.bits * d.2.toNat + x.toNat := by
  have hs := Word.toNat_addCarry d.1 x false
  rw [Bool.toNat_false] at hs
  have hfit : d.2.toNat + (Word.addCarry d.1 x false).2.toNat < 2 ^ w.bits := by
    apply Nat.lt_of_mul_lt_mul_left (a := 2 ^ w.bits)
    rw [Nat.mul_add]
    omega
  refine ⟨((Word.addCarry d.1 x false).1, d.2 + Word.ofBool (Word.addCarry d.1 x false).2), ?_, ?_⟩
  · rw [doubleSum, wordSum_eq (by rwa [Word.toNat_ofBool])]
    rfl
  · show (Word.addCarry d.1 x false).1.toNat + 2 ^ w.bits *
      (d.2 + Word.ofBool (Word.addCarry d.1 x false).2).toNat = _
    rw [Word.toNat_add, Word.toNat_ofBool, Nat.mod_eq_of_lt hfit, Nat.mul_add]
    omega

/-! ## Sequences of words -/

theorem exists_cons_of_length {a m : Limbs w} (h : a.length = m.length) (hne : m ≠ []) :
    ∃ x xs, a = x :: xs :=
  List.exists_cons_of_ne_nil fun hnil =>
    hne (List.length_eq_zero_iff.mp (h.symm.trans (congrArg List.length hnil)))

variable {a b c source : Limbs w} {x : Word w} {first last i : Nat}

theorem wordAt_zero (ha : a ≠ []) : wordAt a 0 = .ok (a.headD 0) := by
  cases a with
  | nil => exact absurd rfl ha
  | cons x xs => rfl

theorem wordAt_append (hi : a.length = i) : wordAt (a ++ x :: c) i = .ok x := by
  rw [wordAt, ← hi, List.getElem?_append_right (Nat.le_refl _), Nat.sub_self,
    List.getElem?_cons_zero]

theorem setWord_append (hi : a.length = i) (y : Word w) :
    setWord (a ++ x :: c) i y = .ok (a ++ y :: c) := by
  have hlt : i < (a ++ x :: c).length := by
    rw [List.length_append, List.length_cons]
    omega
  rw [setWord, Checked.require_of hlt, ← hi, List.set_append_right _ _ (Nat.le_refl _),
    Nat.sub_self, List.set_cons_zero]
  rfl

theorem wordAt_append_succ {y : Word w} (hi : a.length = i) :
    wordAt (a ++ y :: x :: c) (i + 1) = .ok x := by
  rw [List.append_cons]
  exact wordAt_append (by rw [List.length_append, hi, List.length_singleton])

theorem setWord_append_succ {y : Word w} (hi : a.length = i) (z : Word w) :
    setWord (a ++ y :: x :: c) (i + 1) z = .ok (a ++ y :: z :: c) := by
  rw [List.append_cons, List.append_cons a y (z :: c)]
  exact setWord_append (by rw [List.length_append, hi, List.length_singleton]) z

theorem slice_eq (hfirst : first ≤ last) (hlast : last ≤ a.length) :
    slice a first last = .ok ((a.take last).drop first) := by
  rw [slice, Checked.require_of ⟨hfirst, hlast⟩]
  rfl

theorem slice_append (hfirst : a.length = first) (hlast : first + b.length = last) :
    slice (a ++ (b ++ c)) first last = .ok b := by
  rw [slice_eq (by omega) (by simp only [List.length_append]; omega), ← List.append_assoc,
    List.take_left' (by rw [List.length_append]; omega), List.drop_left' hfirst]

theorem write_append (hfirst : a.length = first) (hlast : first + b.length = last)
    (hsource : source.length = b.length) :
    write (a ++ (b ++ c)) first last source = .ok (a ++ (source ++ c)) := by
  have hrange : first ≤ last ∧ last ≤ (a ++ (b ++ c)).length := by
    simp only [List.length_append]
    omega
  have hlength : source.length = last - first := by omega
  rw [write, Checked.require_of hrange, Checked.require_of hlength, List.take_left' hfirst,
    ← List.append_assoc a b, List.drop_left' (by rw [List.length_append]; omega),
    ← List.append_assoc]
  rfl

/-- The words up to a position are read. -/
theorem slice_front (hlast : last ≤ a.length) : slice a 0 last = .ok (a.take last) := by
  rw [slice_eq (Nat.zero_le _) hlast, List.drop_zero]

/-- The words from a position on are read. -/
theorem slice_back (hfirst : first ≤ a.length) : slice a first a.length = .ok (a.drop first) := by
  rw [slice_eq hfirst (Nat.le_refl _), List.take_length]

/-- Copying over the front. -/
theorem write_front (hsource : source.length = last) (hlast : last ≤ a.length) :
    write a 0 last source = .ok (source ++ a.drop last) := by
  have htake : (a.take last).length = last := by
    rw [List.length_take]
    omega
  have h : write ([] ++ (a.take last ++ a.drop last)) 0 last source =
      .ok ([] ++ (source ++ a.drop last)) :=
    write_append rfl ((Nat.zero_add _).trans htake) (hsource.trans htake.symm)
  rwa [List.nil_append, List.take_append_drop] at h

/-- Copying over everything. -/
theorem write_whole (ha : a.length = last) (hsource : source.length = last) :
    write a 0 last source = .ok source := by
  rw [write_front hsource ha.ge, List.drop_eq_nil_of_le ha.le, List.append_nil]

/-- Copying over everything from a position on. -/
theorem write_back (hfirst : a.length = first) (hlast : first + b.length = last)
    (hsource : source.length = b.length) :
    write (a ++ b) first last source = .ok (a ++ source) := by
  have h : write (a ++ (b ++ [])) first last source = .ok (a ++ (source ++ [])) :=
    write_append hfirst hlast hsource
  rwa [List.append_nil, List.append_nil] at h

/-- Copying over the front of zeros. -/
theorem write_zeros {n : Nat} (hlast : a.length = last) (hroom : last ≤ n) :
    write (zeros n) 0 last a = .ok (extend a n) := by
  rw [write_front hlast (by rwa [length_zeros]), zeros, List.drop_replicate, ← hlast]
  rfl

theorem setWord_zeros {n : Nat} (hn : n ≠ 0) (x : Word w) :
    setWord (zeros n) 0 x = .ok (extend [x] n) := by
  obtain ⟨k, rfl⟩ := Nat.exists_eq_succ_of_ne_zero hn
  exact setWord_append (a := []) (c := zeros k) rfl x

theorem one_eq_extend {n : Nat} (hn : n ≠ 0) : (one n : Limbs w) = extend [1] n := by
  obtain ⟨k, rfl⟩ := Nat.exists_eq_succ_of_ne_zero hn
  rfl

end Trapping

end CryptoPrimes
