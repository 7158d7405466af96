import CryptoPrimes.InPlace.Carry
import CryptoPrimes.Proofs.InPlace.Modular
import CryptoPrimes.Proofs.Limbs.Square

/-!
# The square in place is the square

Before the row of a word the buffer holds, from the bottom, the words that are
final, an accumulator as long as the row, and zeros (`crossInto_eq`).  The row
makes two more words final and leaves an accumulator that is a word shorter.
-/

namespace CryptoPrimes.InPlace

open Limbs CryptoPrimes.Modular Trapping

variable {w : Width}

/-- One row: the word it hands out goes into the word above it. -/
theorem crossInto_row {done acc xs zs : Limbs w} {i : Nat} {z : Word w} (x : Word w)
    (hdone : done.length = 2 * i + 1) (hacc : acc.length = xs.length)
    (hsize : 2 * i + 1 + xs.length < sizeLimit) :
    crossInto i (x :: xs) (done ++ (acc ++ z :: zs)) =
      crossInto (i + 1) xs
        (done ++ ((mulAdd acc xs x 0).1 ++ [(mulAdd acc xs x 0).2] ++ zs)) := by
  have hrow := length_mulAdd hacc x 0
  rw [crossInto, checkedSize_eq (by omega), Checked.ok_bind, checkedSize_eq hsize,
    Checked.ok_bind, slice_append hdone (by rw [hacc]), Checked.ok_bind, addMulWord_eq hacc,
    Checked.ok_bind, write_append hdone (by rw [hacc]) hrow, Checked.ok_bind, ← List.append_assoc,
    setWord_append (by rw [List.length_append, hdone, hrow, hacc]), Checked.ok_bind]
  rw [List.append_assoc, List.append_assoc, List.singleton_append]

theorem crossInto_eq {done acc : Limbs w} {i : Nat} (x : Word w) (xs : Limbs w)
    (hdone : done.length = 2 * i + 1) (hacc : acc.length = xs.length)
    (hsize : 2 * i + 2 * xs.length + 1 < sizeLimit) :
    crossInto i (x :: xs) (done ++ (acc ++ zeros (xs.length + 1))) =
      .ok (done ++ crossRows acc (x :: xs)) := by
  induction xs generalizing done acc i x with
  | nil =>
      obtain rfl := List.eq_nil_of_length_eq_zero hacc
      have hzeros : (zeros (([] : Limbs w).length + 1) : Limbs w) = 0 :: [] := rfl
      rw [hzeros, crossInto_row x hdone hacc (by omega), List.append_nil]
      rfl
  | cons y ys ih =>
      have hzeros : (zeros ((y :: ys).length + 1) : Limbs w) = 0 :: zeros (ys.length + 1) := rfl
      have hlength := length_row hacc x
      rw [List.length_cons] at hlength hsize
      rw [hzeros, crossInto_row x hdone hacc (by rw [List.length_cons]; omega), crossRows]
      generalize (mulAdd acc (y :: ys) x 0).1 ++ [(mulAdd acc (y :: ys) x 0).2] = acc' at *
      have hdone' : (done ++ acc'.take 2).length = 2 * (i + 1) + 1 := by
        rw [List.length_append, List.length_take]
        omega
      have hacc' : (acc'.drop 2).length = ys.length := by
        rw [List.length_drop]
        omega
      have hcut : done ++ (acc' ++ zeros (ys.length + 1)) =
          done ++ acc'.take 2 ++ (acc'.drop 2 ++ zeros (ys.length + 1)) := by
        rw [List.append_assoc, ← List.append_assoc (acc'.take 2), List.take_append_drop]
      rw [hcut, ih y hdone' hacc' (by omega), List.append_assoc]

theorem diagonalInto_eq {c a : Limbs w} (h : c.length = 2 * a.length) (carry : Bool) :
    diagonalInto c a carry = .ok (addDiagonal c a carry) := by
  induction a generalizing c carry with
  | nil =>
      obtain rfl := List.eq_nil_of_length_eq_zero h
      rfl
  | cons x xs ih =>
      obtain ⟨low, high, cs, rfl, hcs⟩ := exists_two_words h
      rw [diagonalInto, mulAddWord_eq, Checked.ok_bind]
      dsimp only
      rw [ih hcs]
      rfl

/-- All rows, into words that are cleared first. -/
theorem crossInto_cleared {target a : Limbs w} (h : target.length = 2 * a.length)
    (hsize : 2 * a.length < sizeLimit) :
    crossInto 0 a (cleared target) = .ok (crossProducts a) := by
  rw [cleared_eq_zeros, h]
  cases a with
  | nil => rfl
  | cons x xs =>
      rw [List.length_cons] at hsize ⊢
      have hzeros : (zeros (2 * (xs.length + 1)) : Limbs w) =
          [0] ++ (zeros xs.length ++ zeros (xs.length + 1)) := by
        rw [zeros, zeros, zeros, List.replicate_append_replicate, ← List.replicate_one,
          List.replicate_append_replicate]
        congr 1
        omega
      rw [hzeros, crossInto_eq x xs rfl (length_zeros _) (by omega)]
      rfl

/-- The shift after the rows, with no bit that is lost. -/
theorem shlCarry_crossProducts (a : Limbs w) :
    shlCarry (crossProducts a) 1 = .ok ((shlWithin (crossProducts a) 1).1, 0) := by
  rw [shlCarry_eq _ (by cases w <;> decide), ← shlWithin_crossProducts a]

/-- The squares on the diagonal, with no carry that is left. -/
theorem diagonalInto_doubled (a : Limbs w) :
    diagonalInto (shlWithin (crossProducts a) 1).1 a false = .ok ((Limbs.square a).1, false) := by
  have hroom : (shlWithin (crossProducts a) 1).1.length = 2 * a.length :=
    (length_shlWithin _ 1).trans (crossProducts_spec a).1
  rw [diagonalInto_eq hroom]
  exact congrArg Except.ok (Prod.ext rfl (square_spec a).2.2)

theorem square_eq {target a : Limbs w} (h : target.length = 2 * a.length)
    (hsize : 2 * a.length < sizeLimit) : square target a = .ok (Limbs.square a).1 := by
  rw [square, Checked.require_of h, Checked.ok_bind, crossInto_cleared h hsize, Checked.ok_bind,
    shlCarry_crossProducts, Checked.ok_bind, diagonalInto_doubled, Checked.ok_bind]
  rfl

end CryptoPrimes.InPlace
