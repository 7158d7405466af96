import CryptoPrimes.InPlace.Search
import CryptoPrimes.Proofs.InPlace.Square

/-!
# Schoolbook products and squares

The product clears its words and adds a row for each word of the second factor;
the square adds the rows of different words once, doubles them by a shift, and
adds the squares on the diagonal.  Two results of one length and one value are
the same words, so the square is the product of a number with itself although the
two have hardly a step in common.

Lengths are arbitrary, and so is what the words held before.  A square is
followed through its stages (`SquareStages`): the shift and the diagonal could
each lose something at the top, and neither does.
-/

namespace CryptoPrimes.InPlace

open Limbs CryptoPrimes.Modular Trapping

variable {w : Width} {target a b c : Limbs w}

/-- The product in place is the product. -/
theorem mul_eq (h : target.length = a.length + b.length)
    (hsize : a.length + b.length < sizeLimit) : mul target a b = .ok (Limbs.mul a b) := by
  have hrun := Trapping.mul_eq hsize
  rw [Trapping.mul, Checked.require_of rfl, Checked.ok_bind] at hrun
  rw [mul, Checked.require_of h, Checked.ok_bind, cleared_eq_zeros, h]
  exact hrun

/-- The square is the product of a number with itself. -/
theorem square_eq_mul (a : Limbs w) : (Limbs.square a).1 = Limbs.mul a a := by
  obtain ⟨hlength, hvalue, -⟩ := square_spec a
  apply val_inj
  · rw [hlength, length_mul, Nat.two_mul]
  · rw [hvalue, val_mul]

/-- What the words of a square hold from stage to stage, up to its result `c`: the
products of different words, their double with the bits that are shifted out of the
top, and the sum with the diagonal and its last carry. -/
structure SquareStages (target a c : Limbs w) : Prop where
  rows : crossInto 0 a (cleared target) = .ok (crossProducts a)
  shift : shlCarry (crossProducts a) 1 = .ok ((shlWithin (crossProducts a) 1).1, 0)
  diagonal : diagonalInto (shlWithin (crossProducts a) 1).1 a false = .ok (c, false)
  result : square target a = .ok c

theorem square_stages (h : target.length = 2 * a.length) (hsize : 2 * a.length < sizeLimit) :
    SquareStages target a (Limbs.mul a a) where
  rows := crossInto_cleared h hsize
  shift := shlCarry_crossProducts a
  diagonal := by rw [diagonalInto_doubled, square_eq_mul]
  result := by rw [square_eq h hsize, square_eq_mul]

/-- The words `c` as the product of `a` and `b`, on values and in place: the same
words come out of any words of that length. -/
structure IsProduct (a b c : Limbs w) : Prop where
  length : c.length = a.length + b.length
  value : val c = val a * val b
  plain : mulTo (a.length + b.length) a b = .ok c
  inPlace : a.length + b.length < sizeLimit → ∀ target : Limbs w,
    target.length = a.length + b.length → mul target a b = .ok c

theorem isProduct_mul (a b : Limbs w) : IsProduct a b (Limbs.mul a b) where
  length := length_mul a b
  value := val_mul a b
  plain := by
    rw [mulTo, Checked.require_of rfl]
    rfl
  inPlace hsize _ h := mul_eq h hsize

/-- Products and squares are exact, of any lengths and whatever the words of the
result held before.  A square has the words of the product, and on its way neither
the doubling shift loses a bit nor the diagonal a carry. -/
theorem mul_square_exact (a b : Limbs w) :
    (∃ c, IsProduct a b c) ∧
    ∃ c, IsProduct a a c ∧ val c = val a ^ 2 ∧ squareTo (2 * a.length) a = .ok c ∧
      (2 * a.length < sizeLimit → ∀ target : Limbs w, target.length = 2 * a.length →
        SquareStages target a c) := by
  refine ⟨⟨_, isProduct_mul a b⟩, Limbs.mul a a, isProduct_mul a a, ?_, ?_, ?_⟩
  · rw [val_mul, Nat.pow_two]
  · rw [squareTo_eq, square_eq_mul]
  · intro hsize target h
    exact square_stages h hsize

/-- The largest numbers of two words, and a factor without words. -/
theorem mul_square_exact_full_words :
    mul [1, 2] [0xffffffff, 0xffffffff] ([] : Limbs .w32) = .ok [0, 0] ∧
      square [9, 9, 9, 9] ([0xffffffff, 0xffffffff] : Limbs .w32) =
        .ok [1, 0, 0xfffffffe, 0xffffffff] ∧
      mul [7, 7, 7, 7] [0xffffffff, 0xffffffff] ([0xffffffff, 0xffffffff] : Limbs .w32) =
        .ok [1, 0, 0xfffffffe, 0xffffffff] := by
  obtain ⟨⟨c, hc⟩, s, hs, -, -, hstages⟩ :=
    mul_square_exact ([0xffffffff, 0xffffffff] : Limbs .w32) []
  have hcval : c = [0, 0] := val_inj hc.length (hc.value.trans (by decide))
  have hsval : s = [1, 0, 0xfffffffe, 0xffffffff] :=
    val_inj hs.length (hs.value.trans (by decide))
  subst hcval hsval
  exact ⟨hc.inPlace (by decide) _ rfl, (hstages (by decide) _ rfl).result,
    hs.inPlace (by decide) _ rfl⟩

end CryptoPrimes.InPlace
