import Mathlib.Algebra.BigOperators.Fin
import CryptoPrimes.Proofs.Limbs.Value
import CryptoPrimes.Proofs.Octets

/-!
# Octets of words

An octet string is loaded word by word from its low end.  If the words have room
for it they hold the number that the string stands for, at either width
(`val_ofOctets`).  What is stored is a string of the given length whose number is
that of the words, cut off at this length (`store_eq_ofNat`); so both ways of going
back and forth are seen on numbers.
-/

namespace CryptoPrimes

/-- The number of an octet string, digit by digit. -/
theorem Octets.val_eq_sum (octets : Octets) :
    val octets = ∑ i : Fin octets.length, (octets.get i).toNat * 256 ^ (i : Nat) := by
  induction octets with
  | nil => rfl
  | cons octet rest ih =>
      show octet.toNat + 256 * val rest =
        ∑ i : Fin (rest.length + 1), ((octet :: rest).get i).toNat * 256 ^ (i : Nat)
      rw [Fin.sum_univ_succ, ih, Finset.mul_sum]
      congr 1
      · exact (Nat.mul_one _).symm
      · refine Finset.sum_congr rfl fun i _ => ?_
        rw [Fin.val_succ, Nat.pow_succ', Nat.mul_left_comm]
        rfl

namespace Limbs

variable {w : Width}

/-! ## Loading -/

@[simp] theorem length_ofOctets (n : Nat) (octets : Octets) :
    (ofOctets n octets : Limbs w).length = n := by
  induction n generalizing octets with
  | zero => rfl
  | succ n ih => rw [ofOctets, List.length_cons, ih]

theorem val_ofOctets {n : Nat} {octets : Octets} (h : octets.length ≤ n * w.octets) :
    val (ofOctets n octets : Limbs w) = Octets.val octets := by
  induction n generalizing octets with
  | zero =>
      have hnil : octets = [] := List.length_eq_zero_iff.mp (by omega)
      rw [hnil]
      rfl
  | succ n ih =>
      have hhigh : (octets.drop w.octets).length ≤ n * w.octets := by
        rw [List.length_drop]
        rw [Nat.succ_mul] at h
        omega
      have hword : (octets.take w.octets).length ≤ w.octets := List.length_take_le _ _
      rw [ofOctets, val_cons, ih hhigh, Word.toNat_ofOctets hword]
      conv_rhs => rw [← List.take_append_drop w.octets octets, Octets.val_append]
      -- all octets are in the lowest word, or the first of them fill it
      rcases Nat.le_total octets.length w.octets with hshort | hlong
      · rw [List.drop_eq_nil_of_le hshort]
        rfl
      · rw [List.length_take, Nat.min_eq_left hlong, Word.radix_eq_octets]

theorem load_eq {n : Nat} {octets : Octets} (h : octets.length ≤ n * w.octets) :
    load n octets = .ok (ofOctets n octets : Limbs w) := by
  rw [load, Checked.require_of h]
  rfl

/-! ## Storing -/

theorem val_toOctets (a : Limbs w) : Octets.val (toOctets a) = val a := by
  induction a with
  | nil => rfl
  | cons x xs ih =>
      have hword : Octets.val x.toOctets = x.toNat := by
        rw [Word.toOctets_eq, Octets.val_ofNat, ← Word.radix_eq_octets,
          Nat.mod_eq_of_lt x.toNat_lt]
      rw [toOctets] at ih
      rw [toOctets, List.flatMap_cons, Octets.val_append, ih, hword, Word.length_toOctets,
        ← Word.radix_eq_octets, val_cons]

theorem store_nil (count : Nat) : store count ([] : Limbs w) = List.replicate count 0 := by
  rw [store, toOctets, List.flatMap_nil, List.take_nil, List.nil_append, List.length_nil,
    Nat.sub_zero]

/-- The lowest word gives the first octets. -/
theorem store_cons (count : Nat) (x : Word w) (xs : Limbs w) :
    store count (x :: xs) = x.toOctets.take count ++ store (count - w.octets) xs := by
  have hcons : toOctets (x :: xs) = x.toOctets ++ toOctets xs := rfl
  rw [store, store, hcons, List.take_append, List.length_append, Word.length_toOctets,
    List.append_assoc, Nat.sub_sub]

/-- What is stored are the low octets of the number, however many words it has. -/
theorem store_eq_ofNat (count : Nat) (a : Limbs w) :
    store count a = Octets.ofNat count (val a) := by
  apply Octets.eq_ofNat
  · rw [store, List.length_append, List.length_take, List.length_replicate]
    omega
  · rw [store, Octets.val_append, Octets.val_replicate_zero, Nat.mul_zero, Nat.add_zero,
      Octets.val_take, val_toOctets]

/-- Loading what all octets of a number have been stored to gives its words back,
with zero words on top. -/
theorem ofOctets_store {a : Limbs w} {count n : Nat} (hall : a.length * w.octets ≤ count)
    (hroom : count ≤ n * w.octets) : ofOctets n (store count a) = extend a n := by
  have hlength : a.length ≤ n := Nat.le_of_mul_le_mul_right (hall.trans hroom) w.octets_pos
  have hlt : val a < 256 ^ count := by
    have hval := val_lt a
    rw [Nat.pow_mul, Word.radix_eq_octets, ← Nat.pow_mul, Nat.mul_comm] at hval
    exact hval.trans_le (Nat.pow_le_pow_right (by decide) hall)
  apply val_inj
  · rw [length_ofOctets, length_extend hlength]
  · rw [store_eq_ofNat, val_ofOctets (by rwa [Octets.length_ofNat]), Octets.val_ofNat,
      Nat.mod_eq_of_lt hlt, val_extend]

/-- Storing as many octets as have been loaded gives them back. -/
theorem store_ofOctets {n : Nat} {octets : Octets} (h : octets.length ≤ n * w.octets) :
    store octets.length (ofOctets n octets : Limbs w) = octets := by
  rw [store_eq_ofNat, val_ofOctets h, Octets.ofNat_val]

end Limbs

end CryptoPrimes
