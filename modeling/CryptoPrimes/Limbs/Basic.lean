import CryptoPrimes.Word.Bits
import CryptoPrimes.Fault

/-!
# Little-endian numbers

A number is a sequence of words, least significant first.  Its length is the
room it takes, not its size: leading zero words are kept and no operation drops
them on its own.  `val` is the number a sequence stands for, and the comparisons
and length queries of this file are meant to answer about `val` alone.

Comparison works from the top word down, as the order of `val` demands; the
recursions descend to the top first and let the lower words break ties.
-/

namespace CryptoPrimes

/-- Numbers as sequences of words, least significant first. -/
abbrev Limbs (w : Width) := List (Word w)

namespace Limbs

variable {w : Width}

/-- The number a sequence of words stands for. -/
def val : Limbs w → Nat
  | [] => 0
  | x :: xs => x.toNat + 2 ^ w.bits * val xs

@[simp] theorem val_nil : val ([] : Limbs w) = 0 := rfl

@[simp] theorem val_cons (x : Word w) (xs : Limbs w) :
    val (x :: xs) = x.toNat + 2 ^ w.bits * val xs := rfl

/-- Zero, in `n` words. -/
def zeros (n : Nat) : Limbs w := List.replicate n 0

/-- One, in `n` words; no words hold nothing. -/
def one : Nat → Limbs w
  | 0 => []
  | n + 1 => 1 :: zeros n

/-- The same number in at least `n` words. -/
def extend (a : Limbs w) (n : Nat) : Limbs w := a ++ zeros (n - a.length)

/-! ## Comparison -/

/-- Whether every word is zero. -/
def isZero (a : Limbs w) : Bool := a.all (· == 0)

theorem isZero_iff {a : Limbs w} : isZero a = true ↔ val a = 0 := by
  induction a with
  | nil => simp [isZero]
  | cons x xs ih =>
    have hpos : 0 < 2 ^ w.bits := Nat.two_pow_pos _
    have hx : (x == 0) = true ↔ x.toNat = 0 := by
      rw [beq_iff_eq, ← Word.toNat_inj, Word.toNat_zero]
    rw [isZero] at ih
    simp only [isZero, List.all_cons, Bool.and_eq_true, hx, ih, val_cons, Nat.add_eq_zero_iff,
      Nat.mul_eq_zero]
    constructor
    · exact fun h => ⟨h.1, .inr h.2⟩
    · exact fun h => ⟨h.1, h.2.resolve_left (by omega)⟩

/-- Whether the number is the single word `x`. -/
def isWord (a : Limbs w) (x : Word w) : Bool :=
  match a with
  | [] => x == 0
  | y :: ys => y == x && isZero ys

/-- Whether every word is `x`. -/
def isRepeated (a : Limbs w) (x : Word w) : Bool := a.all (· == x)

/-- The order of two numbers of any lengths; absent words are zero. -/
def compare : Limbs w → Limbs w → Ordering
  | [], ys => if isZero ys then .eq else .lt
  | x :: xs, [] => if isZero (x :: xs) then .eq else .gt
  | x :: xs, y :: ys => (compare xs ys).then (Ord.compare x y)

/-- The order of two numbers of the same length. -/
def compareSame (a b : Limbs w) : Checked Ordering := do
  require (a.length = b.length) .lengthMismatch
  return compare a b

/-- Equality of two numbers of the same length. -/
def equalSame (a b : Limbs w) : Checked Bool := do
  require (a.length = b.length) .lengthMismatch
  return a == b

/-- Whether the first number is the smaller. -/
def less (a b : Limbs w) : Bool := (compare a b).isLT

/-! ## Lengths and bits -/

/-- Words up to the highest nonzero one. -/
def wordLen : Limbs w → Nat
  | [] => 0
  | x :: xs =>
    match wordLen xs with
    | 0 => if x = 0 then 0 else 1
    | n + 1 => n + 2

/-- Bits up to the highest set one. -/
def bitLen : Limbs w → Nat
  | [] => 0
  | x :: xs =>
    match bitLen xs with
    | 0 => x.bitLength
    | n + 1 => n + 1 + w.bits

/-- The number without its leading zero words. -/
def trim (a : Limbs w) : Limbs w := a.take (wordLen a)

/-- Whether the number is odd. -/
def isOdd : Limbs w → Bool
  | [] => false
  | x :: _ => x.isOdd

/-- Zero bits below the lowest set bit; zero for zero. -/
def trailingZeros : Limbs w → Nat
  | [] => 0
  | x :: xs =>
    if x = 0 then
      if isZero xs then 0 else w.bits + trailingZeros xs
    else x.trailingZeros

/-- Bit `i`; bits beyond the end are clear. -/
def testBit (a : Limbs w) (i : Nat) : Bool :=
  match a[i / w.bits]? with
  | some x => x.testBit (i % w.bits)
  | none => false

/-- The bits of a number, lowest first. -/
def bitList (a : Limbs w) : List Bool := a.flatMap Word.bitList

/-- The word with bit `i` made `value`. -/
def putBit (x : Word w) (i : Nat) (value : Bool) : Word w :=
  let mask := (1 : Word w) <<< i
  if value then x ||| mask else x &&& ~~~mask

/-- Make bit `i` equal to `value`; the bit must lie within the words. -/
def setBit (a : Limbs w) (i : Nat) (value : Bool) : Checked (Limbs w) := do
  require (i / w.bits < a.length) .outOfRange
  return a.modify (i / w.bits) fun x => putBit x (i % w.bits) value

/-! ## Choosing and comparing without a branch

These helpers touch every word whatever the words are, so that running time tells
nothing about them.  The choice is made by the lowest bit of a word, widened to a mask
of all bits. -/

/-- `x` where the mask is set, `y` elsewhere. -/
def blend (mask x y : Word w) : Word w := y ^^^ (mask &&& (x ^^^ y))

/-- The words of `a` if the lowest bit of `bit` is set, those of `b` otherwise. -/
def choose (bit : Word w) (a b : Limbs w) : Limbs w :=
  List.zipWith (blend bit.maskFromBit) a b

/-- Equality; numbers of different lengths are different. -/
def sameMasked (a b : Limbs w) : Bool :=
  a.length == b.length && (List.zipWith (· ^^^ ·) a b).foldl (· ||| ·) 0 == 0

/-- Whether all words are zero. -/
def isZeroMasked (a : Limbs w) : Bool := a.foldl (· ||| ·) 0 == 0

/-- Select between two numbers into a destination of `room` words. -/
def select (room : Nat) (bit : Word w) (a b : Limbs w) : Checked (Limbs w) := do
  require (room = a.length ∧ a.length = b.length) .lengthMismatch
  return choose bit a b

/-- Replace `target` by `source` if the lowest bit of `bit` is set. -/
def assignIf (bit : Word w) (target source : Limbs w) : Checked (Limbs w) := do
  require (target.length = source.length) .lengthMismatch
  return choose bit source target

end Limbs

end CryptoPrimes
