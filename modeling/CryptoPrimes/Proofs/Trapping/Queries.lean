import CryptoPrimes.Proofs.Limbs.Bits
import CryptoPrimes.Proofs.Trapping.Limbs

/-!
# Queries about order, length and bits

Comparisons, lengths and single bits are read off the words from the top, but what
they say is about the number alone:

* the order of the words from the top is the order of the numbers
  (`ComparesByValue`);
* the significant words and bits are the least number of words and of bits that hold
  the number, bit `i` is bit `i` of the number, and a bit that is set changes nothing
  else (`MeasuresValue`);
* so leading zero words are not seen (`IgnoresZeros`).

Only the count of the bits computes a position that could leave the machine, and it
counts the significant words alone: what is asked of the length is asked once, and
leading zero words may go beyond it.
-/

namespace CryptoPrimes.Trapping

open Limbs

variable {w : Width}

/-! ## Order -/

/-- Comparisons of two sequences of words compare their numbers; those for one length
are asked for nothing else. -/
structure ComparesByValue (a b : Limbs w) : Prop where
  plain : Limbs.compare a b = Ord.compare (val a) (val b)
  any : compareAny a b = .ok (Ord.compare (val a) (val b))
  same : a.length = b.length → compareSame a b = .ok (Ord.compare (val a) (val b))
  equal : a.length = b.length → equalSame a b = .ok (decide (val a = val b))

theorem beq_eq_decide_val {a b : Limbs w} (h : a.length = b.length) :
    (a == b) = decide (val a = val b) := by
  rw [Bool.eq_iff_iff, beq_iff_eq, decide_eq_true_iff]
  exact ⟨congrArg val, val_inj h⟩

theorem comparesByValue (a b : Limbs w) : ComparesByValue a b where
  plain := compare_eq a b
  any := by rw [compareAny_eq, compare_eq]
  same h := by rw [compareSame_eq h, compare_eq]
  equal h := by rw [equalSame_eq h, beq_eq_decide_val h]

/-! ## Lengths and bits -/

theorem wordLen_isLeast (a : Limbs w) : IsLeast {n | val a < 2 ^ (w.bits * n)} (wordLen a) :=
  ⟨(wordLen_le_iff a _).mp le_rfl, fun n hn => (wordLen_le_iff a n).mpr hn⟩

theorem bitLen_isLeast (a : Limbs w) : IsLeast {t | val a < 2 ^ t} (Limbs.bitLen a) := by
  rw [bitLen_eq_size]
  exact Word.size_isLeast (val a)

/-- Lengths and bits are those of the number.  Setting a bit keeps the words and the
other bits, also where the bit had its new value before. -/
structure MeasuresValue (a : Limbs w) : Prop where
  words : IsLeast {n | val a < 2 ^ (w.bits * n)} (wordLen a)
  bits : IsLeast {t | val a < 2 ^ t} (Limbs.bitLen a)
  counted : bitLen a = .ok (Limbs.bitLen a)
  bit : ∀ i, testBit a i = (val a).testBit i
  set : ∀ i < w.bits * a.length, ∀ value : Bool, ∃ b : Limbs w, setBit a i value = .ok b ∧
    b.length = a.length ∧ ∀ k, testBit b k = if k = i then value else testBit a k

theorem measuresValue {a : Limbs w} (h : w.bits * a.length < sizeLimit) : MeasuresValue a where
  words := wordLen_isLeast a
  bits := bitLen_isLeast a
  counted := bitLen_eq h
  bit := testBit_eq a
  set i hi value := by
    obtain ⟨b, hset, hlength, hbits⟩ := setBit_spec hi value
    exact ⟨b, hset, hlength, fun k => by rw [testBit_eq, testBit_eq, hbits]⟩

/-! ## Leading zero words -/

/-- Zero words above two numbers change none of the answers.  Comparisons of one length
may bring numbers of different lengths to it. -/
structure IgnoresZeros (a b : Limbs w) (k l : Nat) : Prop where
  plain : Limbs.compare (a ++ zeros k) (b ++ zeros l) = Limbs.compare a b
  any : compareAny (a ++ zeros k) (b ++ zeros l) = compareAny a b
  same : a.length + k = b.length + l →
    compareSame (a ++ zeros k) (b ++ zeros l) = compareAny a b
  equal : a.length + k = b.length + l →
    equalSame (a ++ zeros k) (b ++ zeros l) = .ok (decide (val a = val b))
  words : wordLen (a ++ zeros k) = wordLen a
  bits : Limbs.bitLen (a ++ zeros k) = Limbs.bitLen a
  counted : bitLen (a ++ zeros k) = bitLen a
  bit : ∀ i, testBit (a ++ zeros k) i = testBit a i

theorem val_append_zeros (a : Limbs w) (k : Nat) : val (a ++ zeros k) = val a := by
  rw [val_append, val_zeros, Nat.mul_zero, Nat.add_zero]

/-- Each answer is one about the number, and the number is the same. -/
theorem ignoresZeros {a : Limbs w} (h : w.bits * a.length < sizeLimit) (b : Limbs w) (k l : Nat) :
    IgnoresZeros a b k l := by
  have ha : val (a ++ zeros k) = val a := val_append_zeros a k
  have hb : val (b ++ zeros l) = val b := val_append_zeros b l
  have hwords : wordLen (a ++ zeros k) = wordLen a := wordLen_congr ha
  have hbits : Limbs.bitLen (a ++ zeros k) = Limbs.bitLen a := by
    rw [bitLen_eq_size, bitLen_eq_size, ha]
  have hlength (hroom : a.length + k = b.length + l) :
      (a ++ zeros k).length = (b ++ zeros l).length := by
    rwa [List.length_append, List.length_append, length_zeros, length_zeros]
  have hbefore := comparesByValue a b
  have hafter := comparesByValue (a ++ zeros k) (b ++ zeros l)
  exact {
    plain := by rw [hafter.plain, hbefore.plain, ha, hb]
    any := by rw [hafter.any, hbefore.any, ha, hb]
    same := fun hroom => by rw [hafter.same (hlength hroom), hbefore.any, ha, hb]
    equal := fun hroom => by rw [hafter.equal (hlength hroom), ha, hb]
    words := hwords
    bits := hbits
    counted := by
      -- the words above are not counted, so they are not asked to fit
      have hsignificant : w.bits * wordLen (a ++ zeros k) < sizeLimit := by
        rw [hwords]
        exact (Nat.mul_le_mul_left _ (wordLen_le_length a)).trans_lt h
      rw [bitLen_of_wordLen hsignificant, hbits, bitLen_eq h]
    bit := fun i => by rw [testBit_eq, testBit_eq, ha] }

/-- What is asked about the order, the length and the bits of numbers of any lengths is
answered by their values. -/
theorem queries_by_value (a b : Limbs w) (h : w.bits * a.length < sizeLimit) :
    ComparesByValue a b ∧ MeasuresValue a ∧ ∀ k l, IgnoresZeros a b k l :=
  ⟨comparesByValue a b, measuresValue h, ignoresZeros h b⟩

/-- Three words against two that exceed the lower two of them: the word beyond the common
length decides, and its one bit is the top one. -/
theorem queries_by_value_longer :
    let a : Limbs .w64 := [5, 0, 1]
    Width.w64.bits * a.length < sizeLimit ∧ compareAny a [5, 7] = .ok .gt ∧
      bitLen a = .ok 129 ∧ IsLeast {n | val a < 2 ^ (Width.w64.bits * n)} 3 ∧
      (∃ b, setBit a 2 false = .ok b ∧ testBit b 2 = false ∧ testBit b 128 = true) ∧
      compareSame (a ++ zeros 2) ([5, 7] ++ zeros 3) = .ok .gt := by
  intro a
  have hroom : Width.w64.bits * a.length < sizeLimit := by decide
  obtain ⟨horder, hvalue, hzeros⟩ := queries_by_value a [5, 7] hroom
  have hgt : compareAny a [5, 7] = .ok .gt :=
    horder.any.trans (congrArg Except.ok (Nat.compare_eq_gt.mpr (by decide)))
  obtain ⟨b, hset, -, hbits⟩ := hvalue.set 2 (by decide) false
  refine ⟨hroom, hgt, hvalue.counted, hvalue.words, ⟨b, hset, ?_, ?_⟩, ?_⟩
  · exact hbits 2
  · exact (hbits 128).trans (by decide)
  · exact ((hzeros 2 3).same rfl).trans hgt

end CryptoPrimes.Trapping
