import CryptoPrimes.Limbs.Product
import CryptoPrimes.Proofs.Limbs.Value

/-!
# Rows and products

A row `c + a * x` or `c - a * x` is exact once its outgoing word is counted
(`val_mulAdd`, `val_mulSub`); the subtracting row never overflows the word it
hands on, because a product of two words leaves room for one borrow.  A cascade
of rows is the product, `val_mul`.
-/

namespace CryptoPrimes.Limbs

variable {w : Width}

/-! ## Rows -/

theorem length_mulAdd {c a : Limbs w} (h : c.length = a.length) (x carry : Word w) :
    (mulAdd c a x carry).1.length = c.length := by
  induction c generalizing a carry with
  | nil => cases a <;> rfl
  | cons y ys ih =>
      cases a with
      | nil => simp at h
      | cons z zs => simp [mulAdd, ih (Nat.succ.inj h)]

theorem val_mulAdd {c a : Limbs w} (h : c.length = a.length) (x carry : Word w) :
    val (mulAdd c a x carry).1 + 2 ^ (w.bits * c.length) * (mulAdd c a x carry).2.toNat =
      val c + val a * x.toNat + carry.toNat := by
  induction c generalizing a carry with
  | nil =>
      cases a with
      | nil => simp [mulAdd]
      | cons z zs => simp at h
  | cons y ys ih =>
      cases a with
      | nil => simp at h
      | cons z zs =>
          have hword := Word.toNat_mulAdd z x y carry
          have hrest := ih (Nat.succ.inj h) (Word.mulAdd z x y carry).2
          simp only [mulAdd, val_cons, List.length_cons, radix_succ]
          generalize 2 ^ w.bits = B at *
          have hscaled := congrArg (B * ·) hrest
          simp only [Nat.mul_add, Nat.add_mul, ← Nat.mul_assoc] at hscaled ⊢
          omega

/-- A row and its outgoing word. -/
theorem length_row {c a : Limbs w} (h : c.length = a.length) (x : Word w) :
    ((mulAdd c a x 0).1 ++ [(mulAdd c a x 0).2]).length = a.length + 1 := by
  rw [List.length_append, length_mulAdd h, h, List.length_singleton]

theorem val_row {c a : Limbs w} (h : c.length = a.length) (x : Word w) :
    val ((mulAdd c a x 0).1 ++ [(mulAdd c a x 0).2]) = val c + val a * x.toNat := by
  have hrow := val_mulAdd h x 0
  rw [Word.toNat_zero, Nat.add_zero] at hrow
  rw [val_append, length_mulAdd h, val_cons, val_nil, Nat.mul_zero, Nat.add_zero, hrow]

theorem length_mulSub {c a : Limbs w} (h : c.length = a.length) (x borrow : Word w) :
    (mulSub c a x borrow).1.length = c.length := by
  induction c generalizing a borrow with
  | nil => cases a <;> rfl
  | cons y ys ih =>
      cases a with
      | nil => simp at h
      | cons z zs => simp [mulSub, ih (Nat.succ.inj h)]

/-- The high word of a product and a borrow has room for one more borrow: if it
is full, the low word is zero and does not borrow. -/
theorem mulSub_room (y z x borrow : Word w) :
    (Word.mulAdd z x borrow 0).2.toNat + (decide (y < (Word.mulAdd z x borrow 0).1)).toNat <
      2 ^ w.bits := by
  have hproduct := Word.toNat_mulAdd z x borrow 0
  rw [Word.toNat_zero, Nat.add_zero] at hproduct
  have hz := z.toNat_lt
  have hx := x.toNat_lt
  have hb := borrow.toNat_lt
  have hlow := (Word.mulAdd z x borrow 0).1.toNat_lt
  have hhigh := (Word.mulAdd z x borrow 0).2.toNat_lt
  have hsquare : z.toNat * x.toNat ≤ (2 ^ w.bits - 1) * (2 ^ w.bits - 1) :=
    Nat.mul_le_mul (by omega) (by omega)
  have hexpand : (2 ^ w.bits - 1) * (2 ^ w.bits - 1) + (2 ^ w.bits - 1) =
      2 ^ w.bits * (2 ^ w.bits - 1) := by
    rw [← Nat.succ_mul, Nat.succ_eq_add_one, Nat.sub_add_cancel Nat.one_le_two_pow]
  by_cases hless : y < (Word.mulAdd z x borrow 0).1
  · have hpos := Word.lt_iff_toNat_lt.mp hless
    have hne : (Word.mulAdd z x borrow 0).2.toNat ≠ 2 ^ w.bits - 1 := by
      intro heq
      rw [heq] at hproduct
      omega
    rw [decide_eq_true hless, Bool.toNat_true]
    omega
  · rw [decide_eq_false hless, Bool.toNat_false]
    omega

/-- One word of a subtracting row. -/
theorem mulSub_word (y z x borrow : Word w) :
    (y - (Word.mulAdd z x borrow 0).1).toNat + z.toNat * x.toNat + borrow.toNat =
      y.toNat + 2 ^ w.bits * ((Word.mulAdd z x borrow 0).2 +
        Word.ofBool (y < (Word.mulAdd z x borrow 0).1)).toNat := by
  have hproduct := Word.toNat_mulAdd z x borrow 0
  have hdiff := Word.toNat_subBorrow y (Word.mulAdd z x borrow 0).1 false
  simp only [Word.subBorrow, Word.sub_ofBool_false, Word.not_lt_ofBool_false, decide_false,
    Bool.or_false, Bool.toNat_false, Nat.add_zero] at hdiff
  rw [Word.toNat_zero, Nat.add_zero] at hproduct
  rw [Word.toNat_add, Word.toNat_ofBool, Nat.mod_eq_of_lt (mulSub_room y z x borrow), Nat.mul_add]
  omega

theorem val_mulSub {c a : Limbs w} (h : c.length = a.length) (x borrow : Word w) :
    val (mulSub c a x borrow).1 + val a * x.toNat + borrow.toNat =
      val c + 2 ^ (w.bits * c.length) * (mulSub c a x borrow).2.toNat := by
  induction c generalizing a borrow with
  | nil =>
      cases a with
      | nil => simp [mulSub]
      | cons z zs => simp at h
  | cons y ys ih =>
      cases a with
      | nil => simp at h
      | cons z zs =>
          have hword := mulSub_word y z x borrow
          have hrest := ih (Nat.succ.inj h) ((Word.mulAdd z x borrow 0).2 +
            Word.ofBool (y < (Word.mulAdd z x borrow 0).1))
          simp only [mulSub, val_cons, List.length_cons, radix_succ]
          generalize 2 ^ w.bits = B at *
          have hscaled := congrArg (B * ·) hrest
          simp only [Nat.mul_add, Nat.add_mul, ← Nat.mul_assoc] at hscaled ⊢
          omega

/-! ## The product -/

theorem length_mulRows {a acc : Limbs w} (h : acc.length = a.length) (b : Limbs w) :
    (mulRows a acc b).length = a.length + b.length := by
  induction b generalizing acc with
  | nil => simp [mulRows, h]
  | cons y ys ih =>
      have hlength := length_row h y
      unfold mulRows
      rw [List.length_cons, ih (by rw [List.length_tail, hlength, Nat.add_sub_cancel]),
        List.length_cons]
      omega

theorem val_mulRows {a acc : Limbs w} (h : acc.length = a.length) (b : Limbs w) :
    val (mulRows a acc b) = val acc + val a * val b := by
  induction b generalizing acc with
  | nil => simp [mulRows]
  | cons y ys ih =>
      have hlength := length_row h y
      have hsplit := val_headD_tail ((mulAdd acc a y 0).1 ++ [(mulAdd acc a y 0).2])
      rw [val_row h] at hsplit
      unfold mulRows
      rw [val_cons, ih (by rw [List.length_tail, hlength, Nat.add_sub_cancel]), Nat.mul_add,
        ← Nat.add_assoc, hsplit, val_cons]
      ring

theorem length_mul (a b : Limbs w) : (mul a b).length = a.length + b.length :=
  length_mulRows (length_zeros _) b

theorem val_mul (a b : Limbs w) : val (mul a b) = val a * val b := by
  unfold mul
  rw [val_mulRows (length_zeros _), val_zeros, Nat.zero_add]

end CryptoPrimes.Limbs
