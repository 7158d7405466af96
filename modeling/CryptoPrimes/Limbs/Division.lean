import CryptoPrimes.Limbs.Product
import CryptoPrimes.Limbs.Shift
import CryptoPrimes.Scratch

/-!
# Division

Division by a single word is Horner's rule from the top word down.  It comes in
three forms that must agree: a remainder in half-word steps, for moduli of at
most half a word, where every intermediate value fits one word; a remainder in
whole-word steps; and a division that keeps the quotient words.

Long division first shifts divisor and dividend so that the top bit of the
divisor is set.  Then the words of the dividend enter from the top, one at a
time, below a window as long as the divisor.  Each window yields one quotient
word: the estimate from the two top words is corrected against the third
(`refineDigit`), the multiple is subtracted, and if the window went negative the
divisor is added back once.
-/

namespace CryptoPrimes.Limbs

variable {w : Width}

/-! ## Division by a word -/

/-- One word of the remainder by half words. -/
def halfStep (m x r : Word w) : Word w :=
  let r := ((r <<< w.halfBits) ||| (x >>> w.halfBits)) % m
  ((r <<< w.halfBits) ||| (x &&& Word.halfMask)) % m

/-- Remainder by a modulus of at most half a word. -/
def remHalves (a : Limbs w) (m : Word w) : Word w := a.foldr (halfStep m) 0

/-- Remainder by any nonzero word. -/
def remWhole (a : Limbs w) (m : Word w) : Word w :=
  a.foldr (fun x r => (Word.divWide r x m).2) 0

/-- Remainder by a nonzero word, by half words where the modulus allows it. -/
def remWord (a : Limbs w) (m : Word w) : Word w :=
  if m ≤ Word.halfMask then remHalves a m else remWhole a m

/-- Quotient words and remainder by a nonzero word. -/
def divWord : Limbs w → Word w → Limbs w × Word w
  | [], _ => ([], 0)
  | x :: xs, m =>
    let rest := divWord xs m
    let step := Word.divWide rest.2 x m
    (step.1 :: rest.1, step.2)

/-- `remWord`, refusing the modulus zero. -/
def modWord (a : Limbs w) (m : Word w) : Checked (Word w) := do
  require (m ≠ 0) .divisionByZero
  return remWord a m

/-- `divWord`, refusing the divisor zero. -/
def divWordChecked (a : Limbs w) (m : Word w) : Checked (Limbs w × Word w) := do
  require (m ≠ 0) .divisionByZero
  return divWord a m

/-- Quotient and remainder restore the dividend, and the remainder is below the
divisor. -/
theorem val_divWord (a : Limbs w) {m : Word w} (hm : 0 < m.toNat) :
    val (divWord a m).1 * m.toNat + (divWord a m).2.toNat = val a ∧
      (divWord a m).2.toNat < m.toNat := by
  induction a with
  | nil => simp [divWord, hm]
  | cons x xs ih =>
    have hstep := Word.toNat_divWide x ih.2
    refine ⟨?_, hstep.2⟩
    simp only [divWord, val_cons]
    rw [← ih.1, Nat.add_mul, Nat.mul_add, Nat.mul_assoc, Nat.add_right_comm, hstep.1,
      Nat.mul_comm (2 ^ w.bits) (divWord xs m).2.toNat]
    omega

/-- A quotient by two or more is smaller than what was divided. -/
theorem val_divWord_lt {a : Limbs w} {m : Word w} (hm : 2 ≤ m.toNat) (ha : val a ≠ 0) :
    val (divWord a m).1 < val a := by
  have h := (val_divWord a (by omega : 0 < m.toNat)).1
  have hle := Nat.mul_le_mul_left (val (divWord a m).1) hm
  omega

/-! ## One quotient word -/

/-- Correct a quotient estimate `q` with remainder `r`, both for the divisor
`top`, by the next divisor word `next` and the next window word `low`.  The
estimate is lowered while it exceeds a word, or while its product with `next`
exceeds what is left, and no more once the remainder exceeds a word. -/
def refineDigit (w : Width) (top next low : Nat) : Nat → Nat → Nat
  | 0, _ => 0
  | q + 1, r =>
    if 2 ^ w.bits ≤ q + 1 ∨ r * 2 ^ w.bits + low < (q + 1) * next then
      if 2 ^ w.bits ≤ r + top then q else refineDigit w top next low q (r + top)
    else q + 1

/-- The estimated quotient word of a window, whose top three words are given,
by a divisor, whose top two words are given. -/
def estimateDigit (u2 u1 u0 v1 v0 : Word w) : Word w :=
  let n := u2.toNat * 2 ^ w.bits + u1.toNat
  Word.ofNat (refineDigit w v1.toNat v0.toNat u0.toNat (n / v1.toNat) (n % v1.toNat))

/-- The `i`-th word from the top. -/
def fromTop (a : Limbs w) (i : Nat) : Word w := a.getD (a.length - 1 - i) 0

/-- The quotient word of a window one word longer than the divisor `v`, and the
remaining window, as long as `v`. -/
def digitStep (v window : Limbs w) : Word w × Limbs w :=
  let q := estimateDigit (fromTop window 0) (fromTop window 1) (fromTop window 2)
    (fromTop v 0) (fromTop v 1)
  let diff := mulSub (window.take v.length) v q 0
  if fromTop window 0 < diff.2 then (q - 1, (addCarry diff.1 v false).1) else (q, diff.1)

/-- Quotient words and remainder of a number whose high part is `window`, below
the normalised divisor `v`, and whose low words are given. -/
def longDivision (v window : Limbs w) (low : Limbs w) : Limbs w × Limbs w :=
  low.foldr (fun x state =>
    let step := digitStep v (x :: state.2)
    (step.1 :: state.1, step.2)) ([], window)

/-! ## Division with remainder -/

/-- Scratch words for dividing `na` words by `nb` words. -/
def divRemDepth (na nb : Nat) : Nat := na + 1 + nb

/-- Quotient and remainder of `a`, which is not below `b`, by a divisor of at
least two significant words, through the scratch. -/
def divideLong (a b : Limbs w) : Work w (Limbs w × Limbs w) :=
  let na := wordLen a
  let nb := wordLen b
  Work.withBuffer (na + 1) fun _ =>
    Work.withBuffer nb fun _ => do
      let shift := (fromTop (b.take nb) 0).leadingZeros
      let v := (shlWithin (b.take nb) shift).1
      let shifted := shlWithin (a.take na) shift
      let u := shifted.1 ++ [shifted.2]
      let result := longDivision v (u.drop (na + 1 - nb)) (u.take (na + 1 - nb))
      let rem := (shrWithin result.2 shift).1
      return (((result.1, rem), extend rem (na + 1)), v)

/-- A quotient in a destination of `room` words: words beyond it must be zero. -/
def fitQuotient (room : Nat) (q : Limbs w) : Checked (Limbs w) := do
  require (isZero (q.drop room)) .outOfRange
  return extend (q.take room) room

/-- Quotient of `qRoom` words and remainder of `rRoom` words.  The remainder has
the length of the divisor; the quotient must hold every nonzero quotient word,
and all of `a`'s significant words if the divisor has only one. -/
def divRem (qRoom rRoom : Nat) (a b : Limbs w) : Work w (Limbs w × Limbs w) := do
  require (rRoom = b.length) .lengthMismatch
  require (wordLen b ≠ 0) .divisionByZero
  if less a b then
    return (zeros qRoom, extend (trim a) rRoom)
  else if wordLen b = 1 then
    require (wordLen a ≤ qRoom) .outOfRange
    let d := divWord (trim a) (b.headD 0)
    return (extend d.1 qRoom, extend [d.2] rRoom)
  else
    let d ← divideLong a b
    let q ← fitQuotient qRoom d.1
    return (q, extend d.2 rRoom)

/-- Remainder of `rRoom` words, as many as the modulus has. -/
def modReduce (rRoom : Nat) (a m : Limbs w) : Work w (Limbs w) := do
  require (rRoom = m.length) .lengthMismatch
  require (wordLen m ≠ 0) .divisionByZero
  if less a m then
    return extend (trim a) rRoom
  else if wordLen m = 1 then
    return extend [remWord (trim a) (m.headD 0)] rRoom
  else
    let d ← divideLong a m
    return extend d.2 rRoom

end CryptoPrimes.Limbs
