import CryptoPrimes.Width

/-!
# Machine words

A `Word w` is an unsigned integer below `2 ^ w.bits`, kept in a 64-bit machine
register.  Ordinary operators wrap around, as the machine's do.  What a
multiprecision routine needs beyond them are the three operations that lose
nothing, and each has one law in the natural numbers:

* `addCarry` — `toNat_addCarry`: sum plus weighted carry is the exact sum;
* `subBorrow` — `toNat_subBorrow`: difference and borrow restore the minuend;
* `mulAdd` — `toNat_mulAdd`: low and high word make up `x * y + acc + carry`,
  which always fits in two words.

Later modules cite these laws and never look at the register again.
-/

namespace CryptoPrimes

/-- An unsigned machine word: a register whose value is below `2 ^ w.bits`. -/
structure Word (w : Width) where
  raw : UInt64
  raw_lt : raw.toNat < 2 ^ w.bits
deriving DecidableEq

namespace Word

variable {w : Width}

/-- The number a word stands for. -/
@[inline] def toNat (x : Word w) : Nat := x.raw.toNat

theorem toNat_lt (x : Word w) : x.toNat < 2 ^ w.bits := x.raw_lt

@[ext] theorem ext {x y : Word w} (h : x.toNat = y.toNat) : x = y := by
  cases x; cases y
  simp only [toNat, UInt64.toNat_inj] at h
  subst h; rfl

theorem toNat_inj {x y : Word w} : x.toNat = y.toNat ↔ x = y :=
  ⟨ext, fun h => h ▸ rfl⟩

/-! ## Reduction to the width -/

/-- The bits of a register that belong to a word. -/
@[inline] def keep : Width → UInt64
  | .w32 => 0xffffffff
  | .w64 => 0xffffffffffffffff

private theorem toNat_and_keep (w : Width) (x : UInt64) :
    (x &&& keep w).toNat = x.toNat % 2 ^ w.bits := by
  cases w
  · simpa [keep, Width.bits] using Nat.and_two_pow_sub_one_eq_mod x.toNat 32
  · simpa [keep, Width.bits] using Nat.and_two_pow_sub_one_eq_mod x.toNat 64

/-- The low bits of a register, as many as the width has. -/
@[inline] def truncate (x : UInt64) : Word w :=
  ⟨x &&& keep w, by
    rw [toNat_and_keep]
    exact Nat.mod_lt _ (Nat.two_pow_pos _)⟩

theorem toNat_truncate (x : UInt64) :
    (truncate x : Word w).toNat = x.toNat % 2 ^ w.bits :=
  toNat_and_keep w x

/-- Reducing modulo the register first changes nothing: its size is a multiple
of the word's. -/
theorem mod_register (w : Width) (n : Nat) : n % 2 ^ 64 % 2 ^ w.bits = n % 2 ^ w.bits :=
  Nat.mod_mod_of_dvd n (Nat.pow_dvd_pow 2 w.bits_le)

/-- The word congruent to `n` modulo `2 ^ w.bits`. -/
@[inline] def ofNat (n : Nat) : Word w := truncate (UInt64.ofNat n)

@[simp] theorem toNat_ofNat (n : Nat) : (ofNat n : Word w).toNat = n % 2 ^ w.bits := by
  rw [ofNat, toNat_truncate, UInt64.toNat_ofNat', mod_register]

theorem toNat_ofNat_of_lt {n : Nat} (h : n < 2 ^ w.bits) : (ofNat n : Word w).toNat = n := by
  rw [toNat_ofNat, Nat.mod_eq_of_lt h]

instance {n : Nat} : OfNat (Word w) n := ⟨ofNat n⟩

@[simp] theorem toNat_zero : (0 : Word w).toNat = 0 := by
  show (ofNat 0 : Word w).toNat = 0
  simp

@[simp] theorem toNat_one : (1 : Word w).toNat = 1 := by
  show (ofNat 1 : Word w).toNat = 1
  cases w <;> simp [Width.bits]

instance : Inhabited (Word w) := ⟨0⟩

/-- The word with every bit set. -/
def allOnes : Word w := truncate 0xffffffffffffffff

/-- One for `true`, zero for `false`. -/
@[inline] def ofBool (b : Bool) : Word w := if b then 1 else 0

@[simp] theorem toNat_ofBool (b : Bool) : (ofBool b : Word w).toNat = b.toNat := by
  cases b <;> simp [ofBool]

/-! ## Wrapping operators -/

instance : Add (Word w) := ⟨fun x y => truncate (x.raw + y.raw)⟩
instance : Sub (Word w) := ⟨fun x y => truncate (x.raw - y.raw)⟩
instance : Mul (Word w) := ⟨fun x y => truncate (x.raw * y.raw)⟩
instance : Neg (Word w) := ⟨fun x => truncate (0 - x.raw)⟩
instance : Mod (Word w) := ⟨fun x y => truncate (x.raw % y.raw)⟩
instance : AndOp (Word w) := ⟨fun x y => truncate (x.raw &&& y.raw)⟩
instance : OrOp (Word w) := ⟨fun x y => truncate (x.raw ||| y.raw)⟩
instance : XorOp (Word w) := ⟨fun x y => truncate (x.raw ^^^ y.raw)⟩
instance : Complement (Word w) := ⟨fun x => truncate (~~~ x.raw)⟩

/-- Shifts by fewer places than the word has bits. -/
instance : HShiftLeft (Word w) Nat (Word w) := ⟨fun x n => truncate (x.raw <<< UInt64.ofNat n)⟩

instance : HShiftRight (Word w) Nat (Word w) := ⟨fun x n => truncate (x.raw >>> UInt64.ofNat n)⟩

instance : LT (Word w) := ⟨fun x y => x.raw < y.raw⟩
instance : LE (Word w) := ⟨fun x y => x.raw ≤ y.raw⟩
instance (x y : Word w) : Decidable (x < y) := inferInstanceAs (Decidable (x.raw < y.raw))
instance (x y : Word w) : Decidable (x ≤ y) := inferInstanceAs (Decidable (x.raw ≤ y.raw))
instance : Ord (Word w) := ⟨fun x y => compareOfLessAndEq x y⟩

theorem lt_iff_toNat_lt {x y : Word w} : x < y ↔ x.toNat < y.toNat := UInt64.lt_iff_toNat_lt

theorem le_iff_toNat_le {x y : Word w} : x ≤ y ↔ x.toNat ≤ y.toNat := UInt64.le_iff_toNat_le

theorem toNat_add (x y : Word w) : (x + y).toNat = (x.toNat + y.toNat) % 2 ^ w.bits := by
  show (truncate (x.raw + y.raw) : Word w).toNat = _
  rw [toNat_truncate, UInt64.toNat_add, mod_register]; rfl

theorem toNat_mul (x y : Word w) : (x * y).toNat = x.toNat * y.toNat % 2 ^ w.bits := by
  show (truncate (x.raw * y.raw) : Word w).toNat = _
  rw [toNat_truncate, UInt64.toNat_mul, mod_register]; rfl

theorem toNat_sub (x y : Word w) :
    (x - y).toNat = (2 ^ w.bits - y.toNat + x.toNat) % 2 ^ w.bits := by
  show (truncate (x.raw - y.raw) : Word w).toNat = _
  rw [toNat_truncate, UInt64.toNat_sub, mod_register]
  have hx := x.toNat_lt
  have hy := y.toNat_lt
  show (2 ^ 64 - y.toNat + x.toNat) % 2 ^ w.bits = _
  cases w with
  | w32 =>
      simp only [Width.bits] at *
      omega
  | w64 => simp only [Width.bits]

/-! ## Carry and borrow -/

/-- `x + y + carry` as a word and an outgoing carry. -/
@[inline] def addCarry (x y : Word w) (carry : Bool) : Word w × Bool :=
  let s := x + y
  let t := s + ofBool carry
  (t, s < x || t < s)

/-- `x - y - borrow` as a word and an outgoing borrow. -/
@[inline] def subBorrow (x y : Word w) (borrow : Bool) : Word w × Bool :=
  let d := x - y
  let e := d - ofBool borrow
  (e, x < y || d < ofBool borrow)

/-- The carry of a wrapping sum shows as a sum below its first term. -/
private theorem carry_cases {B x y c : Nat} (hx : x < B) (hy : y < B) (hc : c ≤ 1) (hB : 2 ≤ B) :
    ((x + y) % B + c) % B +
        B * (decide ((x + y) % B < x) || decide (((x + y) % B + c) % B < (x + y) % B)).toNat =
      x + y + c := by
  by_cases h : x + y < B
  · rw [Nat.mod_eq_of_lt h]
    have h1 : ¬ x + y < x := by omega
    by_cases h2 : x + y + c < B
    · have h3 : ¬ x + y + c < x + y := by omega
      rw [Nat.mod_eq_of_lt h2]
      simp [h1, h3]
    · have h3 : x + y + c = B := by omega
      have h4 : 0 < x + y := by omega
      rw [h3, Nat.mod_self]
      simp [h1, h4]
  · have h1 : (x + y) % B = x + y - B := by
      rw [Nat.mod_eq_sub_mod (by omega), Nat.mod_eq_of_lt (by omega)]
    have h2 : x + y - B < x := by omega
    rw [h1, Nat.mod_eq_of_lt (by omega : x + y - B + c < B)]
    simp [h2]
    omega

/-- The borrow of a wrapping difference shows before the subtraction. -/
private theorem borrow_cases {B x y c : Nat} (hx : x < B) (hy : y < B) (hc : c ≤ 1) (hB : 2 ≤ B) :
    (B - c + (B - y + x) % B) % B + y + c =
      x + B * (decide (x < y) || decide ((B - y + x) % B < c)).toNat := by
  by_cases h : x < y
  · have h1 : (B - y + x) % B = B - y + x := Nat.mod_eq_of_lt (by omega)
    have h2 : (B - c + (B - y + x)) % B = B - y + x - c := by
      by_cases h0 : c = 0
      · rw [h0, Nat.sub_zero, Nat.sub_zero, Nat.add_mod_left, h1]
      · rw [Nat.mod_eq_sub_mod (by omega), Nat.mod_eq_of_lt (by omega)]; omega
    rw [h1, h2]
    simp [h]
    omega
  · have h1 : (B - y + x) % B = x - y := by
      rw [Nat.mod_eq_sub_mod (by omega), Nat.mod_eq_of_lt (by omega)]; omega
    rw [h1]
    by_cases h0 : x - y < c
    · rw [Nat.mod_eq_of_lt (by omega)]
      simp [h, h0]
      omega
    · have h2 : (B - c + (x - y)) % B = x - y - c := by
        rw [Nat.mod_eq_sub_mod (by omega), Nat.mod_eq_of_lt (by omega)]; omega
      rw [h2]
      simp [h, h0]
      omega

theorem two_le_radix (w : Width) : 2 ≤ 2 ^ w.bits := by
  cases w <;> decide

/-- Nothing is lost: the outgoing carry has the weight of one more word. -/
theorem toNat_addCarry (x y : Word w) (carry : Bool) :
    (addCarry x y carry).1.toNat + 2 ^ w.bits * (addCarry x y carry).2.toNat =
      x.toNat + y.toNat + carry.toNat := by
  have h := carry_cases x.toNat_lt y.toNat_lt (Bool.toNat_le carry) (two_le_radix w)
  simpa only [addCarry, lt_iff_toNat_lt, toNat_add, toNat_ofBool] using h

/-- Nothing is lost: difference, subtrahend and borrow restore the minuend. -/
theorem toNat_subBorrow (x y : Word w) (borrow : Bool) :
    (subBorrow x y borrow).1.toNat + y.toNat + borrow.toNat =
      x.toNat + 2 ^ w.bits * (subBorrow x y borrow).2.toNat := by
  have h := borrow_cases x.toNat_lt y.toNat_lt (Bool.toNat_le borrow) (two_le_radix w)
  simpa only [subBorrow, lt_iff_toNat_lt, toNat_sub, toNat_ofBool] using h

/-! ## The wide product -/

/-- The product of two registers as a low and a high register, from the four
products of their halves. -/
@[inline] def wideProduct (x y : UInt64) : UInt64 × UInt64 :=
  let x0 := x &&& 0xffffffff
  let x1 := x >>> 32
  let y0 := y &&& 0xffffffff
  let y1 := y >>> 32
  let cross := x0 * y1
  let other := x1 * y0
  let middle := ((x0 * y0) >>> 32) + (cross &&& 0xffffffff) + (other &&& 0xffffffff)
  (x * y, x1 * y1 + (cross >>> 32) + (other >>> 32) + (middle >>> 32))

private theorem toNat_lowHalf (x : UInt64) : (x &&& 0xffffffff).toNat = x.toNat % 2 ^ 32 := by
  simpa using Nat.and_two_pow_sub_one_eq_mod x.toNat 32

private theorem toNat_highHalf (x : UInt64) : (x >>> 32).toNat = x.toNat / 2 ^ 32 := by
  simp [UInt64.toNat_shiftRight, Nat.shiftRight_eq_div_pow]

/-- The identity behind the product by halves, with the four partial products
named. -/
private theorem halves_product {x y p q r s : Nat}
    (hp : p = x % 2 ^ 32 * (y % 2 ^ 32)) (hq : q = x % 2 ^ 32 * (y / 2 ^ 32))
    (hr : r = x / 2 ^ 32 * (y % 2 ^ 32)) (hs : s = x / 2 ^ 32 * (y / 2 ^ 32)) :
    x * y = p + 2 ^ 32 * q + 2 ^ 32 * r + 2 ^ 64 * s := by
  have hx : x = x % 2 ^ 32 + 2 ^ 32 * (x / 2 ^ 32) := (Nat.mod_add_div x _).symm
  have hy : y = y % 2 ^ 32 + 2 ^ 32 * (y / 2 ^ 32) := (Nat.mod_add_div y _).symm
  generalize x % 2 ^ 32 = x0, x / 2 ^ 32 = x1, y % 2 ^ 32 = y0, y / 2 ^ 32 = y1 at *
  subst hx hy hp hq hr hs
  rw [Nat.add_mul, Nat.mul_add, Nat.mul_add, Nat.mul_left_comm x0, Nat.mul_assoc, Nat.mul_assoc,
    Nat.mul_left_comm x1]
  omega

/-- The high register of a product: the sum of the high parts fits, because the
whole product fits two registers. -/
private theorem high_of_halves {p q r s z : Nat} (hp : p ≤ (2 ^ 32 - 1) * (2 ^ 32 - 1))
    (hz : z = p + 2 ^ 32 * q + 2 ^ 32 * r + 2 ^ 64 * s) (hlt : z < 2 ^ 64 * 2 ^ 64) :
    z % 2 ^ 64 + 2 ^ 64 *
      ((((s + q / 2 ^ 32) % 2 ^ 64 + r / 2 ^ 32) % 2 ^ 64 +
        ((p / 2 ^ 32 + q % 2 ^ 32) % 2 ^ 64 + r % 2 ^ 32) % 2 ^ 64 / 2 ^ 32) % 2 ^ 64) = z := by
  have hmiddle : ((p / 2 ^ 32 + q % 2 ^ 32) % 2 ^ 64 + r % 2 ^ 32) % 2 ^ 64 =
      p / 2 ^ 32 + q % 2 ^ 32 + r % 2 ^ 32 := by
    have h1 : p / 2 ^ 32 < 2 ^ 32 := by omega
    have h2 := Nat.mod_lt q (by decide : 0 < 2 ^ 32)
    have h3 := Nat.mod_lt r (by decide : 0 < 2 ^ 32)
    rw [Nat.mod_eq_of_lt (by omega : p / 2 ^ 32 + q % 2 ^ 32 < 2 ^ 64), Nat.mod_eq_of_lt (by omega)]
  have hhigh : z / 2 ^ 64 =
      s + q / 2 ^ 32 + r / 2 ^ 32 + (p / 2 ^ 32 + q % 2 ^ 32 + r % 2 ^ 32) / 2 ^ 32 := by omega
  have hfit : z / 2 ^ 64 < 2 ^ 64 := Nat.div_lt_of_lt_mul hlt
  rw [hmiddle, Nat.mod_eq_of_lt (by omega : s + q / 2 ^ 32 < 2 ^ 64),
    Nat.mod_eq_of_lt (by omega : s + q / 2 ^ 32 + r / 2 ^ 32 < 2 ^ 64), ← hhigh,
    Nat.mod_eq_of_lt hfit]
  exact Nat.mod_add_div z _

theorem toNat_wideProduct (x y : UInt64) :
    (wideProduct x y).1.toNat + 2 ^ 64 * (wideProduct x y).2.toNat = x.toNat * y.toNat := by
  have hx := x.toNat_lt
  have hy := y.toNat_lt
  have hx0 : x.toNat % 2 ^ 32 ≤ 2 ^ 32 - 1 := by omega
  have hy0 : y.toNat % 2 ^ 32 ≤ 2 ^ 32 - 1 := by omega
  have h := high_of_halves (Nat.mul_le_mul hx0 hy0)
    (halves_product (x := x.toNat) (y := y.toNat) rfl rfl rfl rfl) (Nat.mul_lt_mul'' hx hy)
  have hsmall : x.toNat % 2 ^ 32 * (y.toNat % 2 ^ 32) % 2 ^ 64 =
      x.toNat % 2 ^ 32 * (y.toNat % 2 ^ 32) :=
    Nat.mod_eq_of_lt (Nat.lt_of_le_of_lt (Nat.mul_le_mul hx0 hy0) (by decide))
  have hcross : x.toNat % 2 ^ 32 * (y.toNat / 2 ^ 32) % 2 ^ 64 =
      x.toNat % 2 ^ 32 * (y.toNat / 2 ^ 32) :=
    Nat.mod_eq_of_lt (Nat.lt_of_le_of_lt
      (Nat.mul_le_mul hx0 (by omega : y.toNat / 2 ^ 32 ≤ 2 ^ 32 - 1)) (by decide))
  have hother : x.toNat / 2 ^ 32 * (y.toNat % 2 ^ 32) % 2 ^ 64 =
      x.toNat / 2 ^ 32 * (y.toNat % 2 ^ 32) :=
    Nat.mod_eq_of_lt (Nat.lt_of_le_of_lt
      (Nat.mul_le_mul (by omega : x.toNat / 2 ^ 32 ≤ 2 ^ 32 - 1) hy0) (by decide))
  have htop : x.toNat / 2 ^ 32 * (y.toNat / 2 ^ 32) % 2 ^ 64 =
      x.toNat / 2 ^ 32 * (y.toNat / 2 ^ 32) :=
    Nat.mod_eq_of_lt (Nat.lt_of_le_of_lt
      (Nat.mul_le_mul (by omega : x.toNat / 2 ^ 32 ≤ 2 ^ 32 - 1)
        (by omega : y.toNat / 2 ^ 32 ≤ 2 ^ 32 - 1)) (by decide))
  simpa only [wideProduct, UInt64.toNat_mul, UInt64.toNat_add, toNat_lowHalf, toNat_highHalf,
    hsmall, hcross, hother, htop] using h

/-- `x * y + acc + carry` as a low and a high word. -/
@[inline] def mulAdd (x y acc carry : Word w) : Word w × Word w :=
  match w with
  | .w32 =>
    let t := x.raw * y.raw + acc.raw + carry.raw
    (truncate t, truncate (t >>> 32))
  | .w64 =>
    let p := wideProduct x.raw y.raw
    let s := p.1 + acc.raw
    let t := s + carry.raw
    let high := p.2 + (if s < p.1 then 1 else 0) + (if t < s then 1 else 0)
    (truncate t, truncate high)

/-- Nothing is lost: two words hold every value of `x * y + acc + carry`. -/
theorem toNat_mulAdd (x y acc carry : Word w) :
    (mulAdd x y acc carry).1.toNat + 2 ^ w.bits * (mulAdd x y acc carry).2.toNat =
      x.toNat * y.toNat + acc.toNat + carry.toNat := by
  have hx := x.toNat_lt
  have hy := y.toNat_lt
  have ha := acc.toNat_lt
  have hc := carry.toNat_lt
  cases w
  · have hxy := Nat.mul_le_mul (by simp only [Width.bits] at hx; omega : x.toNat ≤ 2 ^ 32 - 1)
      (by simp only [Width.bits] at hy; omega : y.toNat ≤ 2 ^ 32 - 1)
    simp only [mulAdd, toNat_truncate, toNat_highHalf, UInt64.toNat_add, UInt64.toNat_mul]
    simp only [toNat, Width.bits] at *
    generalize x.raw.toNat * y.raw.toNat = z at *
    omega
  · have hxy := Nat.mul_le_mul (by simp only [Width.bits] at hx; omega : x.toNat ≤ 2 ^ 64 - 1)
      (by simp only [Width.bits] at hy; omega : y.toNat ≤ 2 ^ 64 - 1)
    have hp := toNat_wideProduct x.raw y.raw
    have h1 := (wideProduct x.raw y.raw).1.toNat_lt
    have h2 := (wideProduct x.raw y.raw).2.toNat_lt
    simp only [mulAdd, toNat_truncate, UInt64.toNat_add, UInt64.lt_iff_toNat_lt]
    simp only [toNat, Width.bits] at *
    generalize (wideProduct x.raw y.raw).1 = l at *
    generalize (wideProduct x.raw y.raw).2 = h at *
    generalize x.raw.toNat * y.raw.toNat = z at *
    split <;> split <;> simp_all <;> omega

/-! ## Bits and half words -/

/-- Bit `i` of a word; no bit beyond the width is set. -/
@[inline] def testBit (x : Word w) (i : Nat) : Bool :=
  i < w.bits && ((x.raw >>> UInt64.ofNat i) &&& 1) == 1

/-- The lowest bit, which tells odd from even. -/
@[inline] def isOdd (x : Word w) : Bool := (x.raw &&& 1) == 1

/-- The bits of a word, lowest first. -/
def bitList (x : Word w) : List Bool := (List.range w.bits).map x.testBit

/-- The word whose set bits are the positions that satisfy `p`. -/
def ofBits (p : Nat → Bool) : Word w :=
  (List.range w.bits).foldl (fun x i => if p i then x ||| ((1 : Word w) <<< i) else x) 0

/-- All bits set if the lowest bit of `x` is set, none otherwise. -/
def maskFromBit (x : Word w) : Word w := -(x &&& 1)

/-- The largest value of half a word. -/
def halfMask : Word w := allOnes >>> w.halfBits

/-! ## Division of two words by one -/

/-- Quotient and remainder of `high * 2 ^ w.bits + low` by `d`.  The quotient
fits one word whenever `high < d`. -/
def divWide (high low d : Word w) : Word w × Word w :=
  let n := high.toNat * 2 ^ w.bits + low.toNat
  (ofNat (n / d.toNat), ofNat (n % d.toNat))

theorem toNat_divWide {high d : Word w} (low : Word w) (h : high.toNat < d.toNat) :
    (divWide high low d).1.toNat * d.toNat + (divWide high low d).2.toNat =
        high.toNat * 2 ^ w.bits + low.toNat ∧
      (divWide high low d).2.toNat < d.toNat := by
  have hlow := low.toNat_lt
  have hd := d.toNat_lt
  have hpos : 0 < d.toNat := by omega
  have hr := Nat.mod_lt (high.toNat * 2 ^ w.bits + low.toNat) hpos
  have hq : (high.toNat * 2 ^ w.bits + low.toNat) / d.toNat < 2 ^ w.bits := by
    rw [Nat.div_lt_iff_lt_mul hpos]
    have hle := Nat.mul_le_mul_right (2 ^ w.bits) (Nat.succ_le_of_lt h)
    rw [Nat.succ_mul] at hle
    rw [Nat.mul_comm (2 ^ w.bits)]
    omega
  simp only [divWide]
  rw [toNat_ofNat_of_lt hq, toNat_ofNat_of_lt (by omega : _ < 2 ^ w.bits), Nat.mul_comm]
  exact ⟨Nat.div_add_mod _ _, hr⟩

end Word

end CryptoPrimes
