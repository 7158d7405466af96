import CryptoPrimes.Limbs.Basic

/-!
# Addition and subtraction with carry

Each operation walks the words from the least significant one and hands a carry
on.  The plain forms assume operands of one length and stop at the shorter one;
the forms that take a destination are the checked interface, and differ only in
faulting unless all lengths agree.

The value equations `val_addCarry`, `val_subBorrow` and `val_addWord` say that
the outgoing carry makes the result exact.
-/

namespace CryptoPrimes.Limbs

variable {w : Width}

/-! ## Two numbers -/

/-- `a + b + carry`, and the carry out of the top word. -/
def addCarry : Limbs w → Limbs w → Bool → Limbs w × Bool
  | x :: xs, y :: ys, carry =>
    let s := Word.addCarry x y carry
    let rest := addCarry xs ys s.2
    (s.1 :: rest.1, rest.2)
  | _, _, carry => ([], carry)

/-- `a - b - borrow`, and the borrow out of the top word. -/
def subBorrow : Limbs w → Limbs w → Bool → Limbs w × Bool
  | x :: xs, y :: ys, borrow =>
    let d := Word.subBorrow x y borrow
    let rest := subBorrow xs ys d.2
    (d.1 :: rest.1, rest.2)
  | _, _, borrow => ([], borrow)

/-- `a + m` if `flag` is set and `a` otherwise; a carry is dropped. -/
def addIf (flag : Bool) (a m : Limbs w) : Limbs w :=
  if flag then (addCarry a m false).1 else a

/-- Sum into a destination of `room` words. -/
def add (room : Nat) (a b : Limbs w) : Checked (Limbs w × Bool) := do
  require (room = a.length ∧ a.length = b.length) .lengthMismatch
  return addCarry a b false

/-- Difference into a destination of `room` words. -/
def sub (room : Nat) (a b : Limbs w) : Checked (Limbs w × Bool) := do
  require (room = a.length ∧ a.length = b.length) .lengthMismatch
  return subBorrow a b false

/-- Whether `a + b = c`, with no carry out of the top word. -/
def isSum (c a b : Limbs w) : Checked Bool := do
  require (c.length = a.length ∧ a.length = b.length) .lengthMismatch
  return addCarry a b false == (c, false)

/-! ## A number and a word -/

/-- `a + x`, and the word carried out of the top; no words carry `x` itself. -/
def addWord : Limbs w → Word w → Limbs w × Word w
  | [], x => ([], x)
  | y :: ys, x =>
    let s := y + x
    let rest := addWord ys (Word.ofBool (s < y))
    (s :: rest.1, rest.2)

/-- `a - x`, and the word borrowed past the top; no words borrow `x` itself. -/
def subWord : Limbs w → Word w → Limbs w × Word w
  | [], x => ([], x)
  | y :: ys, x =>
    let rest := subWord ys (Word.ofBool (y < x))
    ((y - x) :: rest.1, rest.2)

/-- Sum with a word into a destination of `room` words. -/
def addWordTo (room : Nat) (a : Limbs w) (x : Word w) : Checked (Limbs w × Word w) := do
  require (room = a.length) .lengthMismatch
  return addWord a x

/-- Difference with a word into a destination of `room` words. -/
def subWordTo (room : Nat) (a : Limbs w) (x : Word w) : Checked (Limbs w × Word w) := do
  require (room = a.length) .lengthMismatch
  return subWord a x

/-- Whether `a + x = c`, with nothing carried out of the top word. -/
def isSumWord (c a : Limbs w) (x : Word w) : Checked Bool := do
  require (c.length = a.length) .lengthMismatch
  return addWord a x == (c, 0)

/-! ## Lengths and values -/

@[simp] theorem length_addWord (a : Limbs w) (x : Word w) : (addWord a x).1.length = a.length := by
  induction a generalizing x with
  | nil => rfl
  | cons y ys ih => simp [addWord, ih]

theorem length_addCarry {a b : Limbs w} (h : a.length = b.length) (carry : Bool) :
    (addCarry a b carry).1.length = a.length := by
  induction a generalizing b carry with
  | nil => rfl
  | cons x xs ih =>
    cases b with
    | nil => simp at h
    | cons y ys => simp [addCarry, ih (Nat.succ.inj h)]

theorem length_subBorrow {a b : Limbs w} (h : a.length = b.length) (borrow : Bool) :
    (subBorrow a b borrow).1.length = a.length := by
  induction a generalizing b borrow with
  | nil => rfl
  | cons x xs ih =>
    cases b with
    | nil => simp at h
    | cons y ys => simp [subBorrow, ih (Nat.succ.inj h)]

private theorem pow_length_cons (x : Word w) (xs : Limbs w) :
    2 ^ (w.bits * (x :: xs).length) = 2 ^ w.bits * 2 ^ (w.bits * xs.length) := by
  rw [List.length_cons, Nat.mul_succ, Nat.add_comm, Nat.pow_add]

theorem val_addCarry {a b : Limbs w} (h : a.length = b.length) (carry : Bool) :
    val (addCarry a b carry).1 + 2 ^ (w.bits * a.length) * (addCarry a b carry).2.toNat =
      val a + val b + carry.toNat := by
  induction a generalizing b carry with
  | nil =>
    cases b with
    | nil => simp [addCarry]
    | cons y ys => simp at h
  | cons x xs ih =>
    cases b with
    | nil => simp at h
    | cons y ys =>
      have hs := Word.toNat_addCarry x y carry
      have hr := ih (Nat.succ.inj h) (Word.addCarry x y carry).2
      simp only [addCarry, val_cons, pow_length_cons]
      generalize 2 ^ w.bits = B at *
      rw [Nat.mul_assoc]
      generalize 2 ^ (w.bits * xs.length) *
        (addCarry xs ys (Word.addCarry x y carry).2).2.toNat = top at *
      have hr' : B * (val (addCarry xs ys (Word.addCarry x y carry).2).1 + top) =
          B * (val xs + val ys + (Word.addCarry x y carry).2.toNat) := by rw [hr]
      simp only [Nat.mul_add] at hr'
      omega

theorem val_subBorrow {a b : Limbs w} (h : a.length = b.length) (borrow : Bool) :
    val (subBorrow a b borrow).1 + val b + borrow.toNat =
      val a + 2 ^ (w.bits * a.length) * (subBorrow a b borrow).2.toNat := by
  induction a generalizing b borrow with
  | nil =>
    cases b with
    | nil => simp [subBorrow]
    | cons y ys => simp at h
  | cons x xs ih =>
    cases b with
    | nil => simp at h
    | cons y ys =>
      have hs := Word.toNat_subBorrow x y borrow
      have hr := ih (Nat.succ.inj h) (Word.subBorrow x y borrow).2
      simp only [subBorrow, val_cons, pow_length_cons]
      generalize 2 ^ w.bits = B at *
      rw [Nat.mul_assoc]
      generalize 2 ^ (w.bits * xs.length) *
        (subBorrow xs ys (Word.subBorrow x y borrow).2).2.toNat = top at *
      have hr' : B * (val (subBorrow xs ys (Word.subBorrow x y borrow).2).1 + val ys +
          (Word.subBorrow x y borrow).2.toNat) = B * (val xs + top) := by rw [hr]
      simp only [Nat.mul_add] at hr'
      omega

private theorem toNat_add_ofBool (x y : Word w) :
    (x + y).toNat + 2 ^ w.bits * (Word.ofBool (x + y < x) : Word w).toNat = x.toNat + y.toNat := by
  have h := Word.toNat_addCarry x y false
  have hzero : (x + y) + Word.ofBool false = x + y := by
    ext
    rw [Word.toNat_add, Word.toNat_ofBool, Bool.toNat_false, Nat.add_zero, Nat.mod_eq_of_lt (Word.toNat_lt _)]
  have hirrefl : ¬ x + y < x + y := by
    rw [Word.lt_iff_toNat_lt]
    exact Nat.lt_irrefl _
  simpa [Word.addCarry, hzero, hirrefl] using h

theorem val_addWord (a : Limbs w) (x : Word w) :
    val (addWord a x).1 + 2 ^ (w.bits * a.length) * (addWord a x).2.toNat =
      val a + x.toNat := by
  induction a generalizing x with
  | nil => simp [addWord]
  | cons y ys ih =>
    have hs := toNat_add_ofBool y x
    have hr := ih (Word.ofBool (y + x < y))
    simp only [addWord, val_cons, pow_length_cons]
    generalize 2 ^ w.bits = B at *
    rw [Nat.mul_assoc]
    generalize 2 ^ (w.bits * ys.length) *
      (addWord ys (Word.ofBool (y + x < y))).2.toNat = top at *
    have hr' : B * (val (addWord ys (Word.ofBool (y + x < y))).1 + top) =
        B * (val ys + (Word.ofBool (y + x < y) : Word w).toNat) := by rw [hr]
    simp only [Nat.mul_add] at hr'
    omega

theorem val_lt (a : Limbs w) : val a < 2 ^ (w.bits * a.length) := by
  induction a with
  | nil => simp
  | cons x xs ih =>
    have hx := x.toNat_lt
    rw [val_cons, pow_length_cons]
    generalize 2 ^ w.bits = B at *
    have h := Nat.mul_le_mul_left B (Nat.succ_le_of_lt ih)
    rw [Nat.mul_succ] at h
    omega

end CryptoPrimes.Limbs
