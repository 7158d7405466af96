import CryptoPrimes.Proofs.Limbs.Product
import CryptoPrimes.Proofs.Limbs.Shift

/-!
# The square is exact

Write `B` for the radix.  A number `x + B * y` has the square
`x * x + B * B * (y * y) + 2 * B * (x * y)`, so the square of a number is the sum
of two parts that follow its words in steps of two: the squares on the diagonal
(`diagonal`), and twice a word above them the products of different words
(`cross`).  Rows and doubling shift compute the second, exactly because a square
fits in twice the words (`val_square_eq`); for the same reason neither the shift
nor the diagonal hands anything out of the top (`squareTo_eq`).
-/

namespace CryptoPrimes.Limbs

variable {w : Width}

/-! ## The two parts of a square -/

/-- The squares of the words, each at its place. -/
def diagonal : Limbs w → Nat
  | [] => 0
  | x :: xs => x.toNat * x.toNat + 2 ^ w.bits * 2 ^ w.bits * diagonal xs

/-- The products of each word with the words above it, counted from one word
above its square. -/
def cross : Limbs w → Nat
  | [] => 0
  | x :: xs => val xs * x.toNat + 2 ^ w.bits * 2 ^ w.bits * cross xs

/-- Both parts together are the square. -/
theorem diagonal_add_cross (a : Limbs w) :
    diagonal a + 2 * (2 ^ w.bits * cross a) = val a * val a := by
  induction a with
  | nil => rfl
  | cons x xs ih =>
      rw [diagonal, cross, val_cons]
      generalize 2 ^ w.bits = B at *
      calc x.toNat * x.toNat + B * B * diagonal xs +
            2 * (B * (val xs * x.toNat + B * B * cross xs))
          = x.toNat * x.toNat + 2 * B * (val xs * x.toNat) +
              B * B * (diagonal xs + 2 * (B * cross xs)) := by ring
        _ = (x.toNat + B * val xs) * (x.toNat + B * val xs) := by rw [ih]; ring

/-! ## The rows -/

/-- What the rows leave above an accumulator.  Each row makes two words final, but
for the last one, which has a single word. -/
theorem crossRows_spec {acc : Limbs w} (x : Word w) (xs : Limbs w) (h : acc.length = xs.length) :
    (crossRows acc (x :: xs)).length = 2 * xs.length + 1 ∧
      val (crossRows acc (x :: xs)) = val acc + cross (x :: xs) := by
  induction xs generalizing acc x with
  | nil =>
      obtain rfl := List.eq_nil_of_length_eq_zero h
      exact ⟨rfl, by simp [crossRows, mulAdd, cross]⟩
  | cons y ys ih =>
      have hlength := length_row h x
      have hvalue := val_row h x
      rw [crossRows]
      generalize (mulAdd acc (y :: ys) x 0).1 ++ [(mulAdd acc (y :: ys) x 0).2] = acc' at *
      rw [List.length_cons] at hlength
      have hrest : (acc'.drop 2).length = ys.length := by
        rw [List.length_drop]
        omega
      obtain ⟨hlen, hval⟩ := ih y hrest
      have hcut := val_take_add_drop acc' (n := 2) (by omega)
      have htake : (acc'.take 2).length = 2 := by
        rw [List.length_take]
        omega
      have hsquare : 2 ^ (w.bits * 2) = 2 ^ w.bits * 2 ^ w.bits := by rw [Nat.mul_two, Nat.pow_add]
      rw [hsquare] at hcut
      constructor
      · rw [List.length_append, htake, hlen, List.length_cons]
        omega
      · rw [val_append, htake, hsquare, hval, Nat.mul_add, ← Nat.add_assoc, hcut, hvalue,
          Nat.add_assoc]
        rfl

theorem crossProducts_spec (a : Limbs w) :
    (crossProducts a).length = 2 * a.length ∧ val (crossProducts a) = 2 ^ w.bits * cross a := by
  cases a with
  | nil => exact ⟨rfl, rfl⟩
  | cons x xs =>
      obtain ⟨hlen, hval⟩ := crossRows_spec x xs (length_zeros xs.length)
      rw [crossProducts]
      constructor
      · rw [List.length_cons, hlen, List.length_cons]
        omega
      · rw [val_cons, Word.toNat_zero, hval, val_zeros, Nat.zero_add, Nat.zero_add]

/-! ## The diagonal -/

/-- A double word, added to two words with a carry. -/
theorem addCarry_double (low high : Word w) (p : Word w × Word w) (carry : Bool) :
    let s := Word.addCarry low p.1 carry
    let t := Word.addCarry high p.2 s.2
    s.1.toNat + 2 ^ w.bits * t.1.toNat + 2 ^ w.bits * 2 ^ w.bits * t.2.toNat =
      low.toNat + 2 ^ w.bits * high.toNat + (p.1.toNat + 2 ^ w.bits * p.2.toNat) +
        carry.toNat := by
  have hs := Word.toNat_addCarry low p.1 carry
  dsimp only
  generalize Word.addCarry low p.1 carry = s at *
  have ht := congrArg (2 ^ w.bits * ·) (Word.toNat_addCarry high p.2 s.2)
  simp only [Nat.mul_add, ← Nat.mul_assoc] at ht
  omega

/-- Twice as many words as a number begin with two words for its lowest one. -/
theorem exists_two_words {c xs : Limbs w} {x : Word w} (h : c.length = 2 * (x :: xs).length) :
    ∃ low high cs, c = low :: high :: cs ∧ cs.length = 2 * xs.length := by
  rw [List.length_cons, Nat.mul_add] at h
  match c with
  | [] => simp at h
  | [_] => simp at h
  | low :: high :: cs => exact ⟨low, high, cs, rfl, Nat.add_right_cancel (m := 2) h⟩

theorem length_addDiagonal {c a : Limbs w} (h : c.length = 2 * a.length) (carry : Bool) :
    (addDiagonal c a carry).1.length = c.length := by
  induction a generalizing c carry with
  | nil =>
      obtain rfl := List.eq_nil_of_length_eq_zero h
      rfl
  | cons x xs ih =>
      obtain ⟨low, high, cs, rfl, hcs⟩ := exists_two_words h
      simp [addDiagonal, ih hcs]

theorem val_addDiagonal {c a : Limbs w} (h : c.length = 2 * a.length) (carry : Bool) :
    val (addDiagonal c a carry).1 + 2 ^ (w.bits * c.length) * (addDiagonal c a carry).2.toNat =
      val c + diagonal a + carry.toNat := by
  induction a generalizing c carry with
  | nil =>
      obtain rfl := List.eq_nil_of_length_eq_zero h
      simp [addDiagonal, diagonal]
  | cons x xs ih =>
      obtain ⟨low, high, cs, rfl, hcs⟩ := exists_two_words h
      have hword := addCarry_double low high (Word.mulAdd x x 0 0) carry
      dsimp only at hword
      rw [Word.toNat_mulAdd, Word.toNat_zero] at hword
      rw [addDiagonal, diagonal, List.length_cons, List.length_cons, radix_succ, radix_succ]
      simp only [val_cons]
      generalize Word.addCarry low (Word.mulAdd x x 0 0).1 carry = s at *
      generalize Word.addCarry high (Word.mulAdd x x 0 0).2 s.2 = t at *
      have hrest := ih hcs t.2
      generalize addDiagonal cs xs t.2 = rest at *
      generalize 2 ^ w.bits = B at *
      generalize 2 ^ (w.bits * cs.length) = top at *
      calc s.1.toNat + B * (t.1.toNat + B * val rest.1) + B * (B * top) * rest.2.toNat
          = s.1.toNat + B * t.1.toNat + B * B * (val rest.1 + top * rest.2.toNat) := by ring
        _ = s.1.toNat + B * t.1.toNat + B * B * t.2.toNat +
              B * B * (val cs + diagonal xs) := by rw [hrest]; ring
        _ = low.toNat + B * (high.toNat + B * val cs) +
              (x.toNat * x.toNat + B * B * diagonal xs) + carry.toNat := by rw [hword]; ring

/-! ## The square -/

/-- Twice the words hold a square. -/
theorem val_mul_self_lt (a : Limbs w) : val a * val a < 2 ^ (w.bits * (2 * a.length)) := by
  have ha := val_lt a
  have hsplit : w.bits * (2 * a.length) = w.bits * a.length + w.bits * a.length := by ring
  rw [hsplit, Nat.pow_add]
  exact Nat.mul_lt_mul'' ha ha

/-- The doubled products are no more than the square, so they fit. -/
theorem doubled_lt (a : Limbs w) :
    val (crossProducts a) * 2 ^ 1 < 2 ^ (w.bits * (crossProducts a).length) := by
  obtain ⟨hlen, hval⟩ := crossProducts_spec a
  have hparts := diagonal_add_cross a
  have hfit := val_mul_self_lt a
  rw [hval, hlen]
  omega

/-- The shift that doubles the products loses no bit. -/
theorem shlWithin_crossProducts (a : Limbs w) : (shlWithin (crossProducts a) 1).2 = 0 :=
  lost_shlWithin_of_lt (by cases w <;> decide) (doubled_lt a)

theorem square_spec (a : Limbs w) :
    (square a).1.length = 2 * a.length ∧ val (square a).1 = val a * val a ∧
      (square a).2 = false := by
  obtain ⟨hlen, hval⟩ := crossProducts_spec a
  have hparts := diagonal_add_cross a
  have hfit := val_mul_self_lt a
  have hdouble : val (shlWithin (crossProducts a) 1).1 = 2 * (2 ^ w.bits * cross a) := by
    rw [val_shlWithin_of_lt (by cases w <;> decide) (doubled_lt a), hval, Nat.pow_one,
      Nat.mul_comm]
  have hroom : (shlWithin (crossProducts a) 1).1.length = 2 * a.length :=
    (length_shlWithin _ 1).trans hlen
  have hsum := val_addDiagonal hroom false
  rw [hroom, hdouble, Bool.toNat_false, Nat.add_zero, Nat.add_comm _ (diagonal a), hparts] at hsum
  have hcarry : (square a).2 = false := by
    by_contra htrue
    have hone : (square a).2.toNat = 1 := by
      rw [Bool.eq_true_of_not_eq_false htrue, Bool.toNat_true]
    unfold square at hone
    rw [hone] at hsum
    omega
  refine ⟨(length_addDiagonal hroom false).trans hroom, ?_, hcarry⟩
  unfold square at hcarry ⊢
  rw [hcarry, Bool.toNat_false] at hsum
  exact hsum

theorem squareTo_eq (a : Limbs w) : squareTo (2 * a.length) a = .ok (square a).1 := by
  rw [squareTo, Checked.require_of rfl, Checked.ok_bind]
  dsimp only
  rw [Checked.require_of (square_spec a).2.2]
  rfl

end CryptoPrimes.Limbs
