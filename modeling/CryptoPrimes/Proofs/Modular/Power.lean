import Mathlib.Data.Nat.Prime.Basic
import CryptoPrimes.Modular.Power
import CryptoPrimes.Proofs.Modular.Montgomery

/-!
# Powers in Montgomery form

`IsForm m a x` says that `a` is the reduced Montgomery form of `x` modulo `m`, and
`IsLooseForm m a x` that it is such a form except that it need not be reduced.  For an
odd modulus the radix cancels, so forms multiply (`IsForm.mul`), and two numbers have
one form exactly if they are congruent (`IsForm.eq_iff`).

The ladder keeps the accumulator at the reduced form of a power of the base.  The base
is only ever a second factor, so it need not be reduced itself.  A bit doubles the
exponent and adds itself, and the bits from the top make up the exponent
(`powerMont_computes`).

A number enters its form unreduced and leaves it reduced (`isForm_enter`,
`isForm_leave`).  With the ladder in between this is modular exponentiation, for
bases beyond the modulus too (`powerMod_computes`).
-/

namespace CryptoPrimes.Modular

open Limbs

variable {w : Width} {a b m : Limbs w} {m0 : Word w} {x y : Nat}

/-- `a` is the Montgomery form of `x` modulo `m`, reduced and as long as `m`. -/
structure IsForm (m a : Limbs w) (x : Nat) : Prop where
  length : a.length = m.length
  lt : val a < val m
  modEq : val a ≡ x * 2 ^ (w.bits * m.length) [MOD val m]

/-- `a` is congruent to the Montgomery form of `x` and as long as `m`. -/
structure IsLooseForm (m a : Limbs w) (x : Nat) : Prop where
  length : a.length = m.length
  modEq : val a ≡ x * 2 ^ (w.bits * m.length) [MOD val m]

theorem IsForm.loose (h : IsForm m a x) : IsLooseForm m a x := ⟨h.length, h.modEq⟩

/-! ## Forms and numbers -/

theorem coprime_radix (hodd : val m % 2 = 1) :
    Nat.gcd (val m) (2 ^ (w.bits * m.length)) = 1 := by
  apply Nat.Coprime.pow_right _
  rw [Nat.coprime_comm, Nat.coprime_two_left, Nat.odd_iff]
  exact hodd

/-- A form is the least residue. -/
theorem IsForm.val_eq (h : IsForm m a x) : val a = x * 2 ^ (w.bits * m.length) % val m := by
  rw [← Nat.mod_eq_of_lt h.lt]
  exact h.modEq

theorem IsForm.congr (h : IsForm m a x) (hxy : x ≡ y [MOD val m]) : IsForm m a y :=
  ⟨h.length, h.lt, h.modEq.trans (hxy.mul_right _)⟩

/-- Congruent numbers, and only those, have the same form. -/
theorem IsForm.eq_iff (hodd : val m % 2 = 1) (ha : IsForm m a x) (hb : IsForm m b y) :
    a = b ↔ x ≡ y [MOD val m] := by
  constructor
  · rintro rfl
    exact Nat.ModEq.cancel_right_of_coprime (coprime_radix hodd) (ha.modEq.symm.trans hb.modEq)
  · intro hxy
    apply val_inj (ha.length.trans hb.length.symm)
    exact Nat.ModEq.eq_of_lt_of_lt ((ha.congr hxy).modEq.trans hb.modEq.symm) ha.lt hb.lt

/-- The radix, reduced, is the form of one. -/
theorem isForm_radix (hm : 0 < val m) (ha : a.length = m.length)
    (hradix : val a = 2 ^ (w.bits * m.length) % val m) : IsForm m a 1 := by
  refine ⟨ha, ?_, ?_⟩
  · rw [hradix]
    exact Nat.mod_lt _ hm
  · rw [hradix, Nat.one_mul]
    exact Nat.mod_modEq _ _

theorem isForm_one (hm : 1 < val m) : IsForm m (radixMod m) 1 :=
  isForm_radix (by omega) (radixMod_spec hm).1 (radixMod_spec hm).2

/-- Minus one is the modulus less one. -/
theorem isForm_minusOne (hodd : val m % 2 = 1) (hm : 1 < val m) :
    IsForm m (subBorrow m (radixMod m) false).1 (val m - 1) := by
  have hone := isForm_one hm
  have honelt := hone.lt
  obtain ⟨hdiff, -⟩ := val_subBorrow_of_le hone.length.symm honelt.le
  -- the form of one is not zero, since the radix is prime to the modulus
  have hpos : val (radixMod m) ≠ 0 := by
    intro hzero
    have h := hone.modEq
    rw [hzero, Nat.one_mul] at h
    have hdvd : val m ∣ 2 ^ (w.bits * m.length) :=
      (Nat.modEq_zero_iff_dvd.mp h.symm)
    have := Nat.Coprime.eq_one_of_dvd (coprime_radix hodd) hdvd
    omega
  refine ⟨length_subBorrow hone.length.symm false, by omega, ?_⟩
  apply Nat.ModEq.add_right_cancel' (val (radixMod m))
  rw [hdiff, Nat.sub_add_cancel honelt.le]
  calc val m ≡ 0 [MOD val m] := Nat.modEq_zero_iff_dvd.mpr dvd_rfl
    _ ≡ val m * 2 ^ (w.bits * m.length) [MOD val m] :=
        (Nat.modEq_zero_iff_dvd.mpr (Nat.dvd_mul_right _ _)).symm
    _ = (val m - 1) * 2 ^ (w.bits * m.length) + 1 * 2 ^ (w.bits * m.length) := by
        rw [← Nat.add_mul]
        congr 1
        omega
    _ ≡ (val m - 1) * 2 ^ (w.bits * m.length) + val (radixMod m) [MOD val m] :=
        hone.modEq.symm.add_left _

/-! ## Multiplication -/

/-- The Montgomery product of forms is the form of the product.  The second of them need
not be reduced, the product is. -/
theorem IsForm.mul (hodd : val m % 2 = 1) (hm0 : IsNegInverse m m0) (ha : IsForm m a x)
    (hb : IsLooseForm m b y) :
    ∃ r : Limbs w, Work.Computes (montMul a b m m0) (montMulDepth m.length) (.ok r) ∧
      IsForm m r (x * y) := by
  obtain ⟨r, hrun, hlen, hlt, hval⟩ := montMul_computes hodd hm0 ha.length hb.length (.inl ha.lt)
  refine ⟨r, hrun, hlen, hlt, Nat.ModEq.cancel_right_of_coprime (coprime_radix hodd) ?_⟩
  calc val r * 2 ^ (w.bits * m.length)
      ≡ val a * val b [MOD val m] := hval
    _ ≡ x * 2 ^ (w.bits * m.length) * (y * 2 ^ (w.bits * m.length)) [MOD val m] :=
        ha.modEq.mul hb.modEq
    _ = x * y * 2 ^ (w.bits * m.length) * 2 ^ (w.bits * m.length) := by ring

/-- A number takes its form by a product with the squared radix.  It need not be
reduced, as the squared radix is. -/
theorem isForm_enter (hodd : val m % 2 = 1) (hm0 : IsNegInverse m m0)
    (ha : a.length = m.length) (hm : 1 < val m) :
    ∃ r : Limbs w,
      Work.Computes (montMul a (radixSquareMod m) m m0) (montMulDepth m.length) (.ok r) ∧
      IsForm m r (val a) := by
  obtain ⟨r, hrun, hlen, hrlt, hval⟩ :=
    montMul_computes hodd hm0 ha (radixSquareMod_spec hm).1 (.inr (radixSquareMod_lt hm))
  refine ⟨r, hrun, hlen, hrlt, Nat.ModEq.cancel_right_of_coprime (coprime_radix hodd) ?_⟩
  calc val r * 2 ^ (w.bits * m.length)
      ≡ val a * val (radixSquareMod m) [MOD val m] := hval
    _ ≡ val a * (2 ^ (w.bits * m.length) * 2 ^ (w.bits * m.length)) [MOD val m] := by
        rw [(radixSquareMod_spec hm).2]
        exact (Nat.mod_modEq _ _).mul_left _
    _ = val a * 2 ^ (w.bits * m.length) * 2 ^ (w.bits * m.length) := by ring

/-- A form gives the number back by a product with one. -/
theorem isForm_leave (hodd : val m % 2 = 1) (hm0 : IsNegInverse m m0) (ha : IsForm m a x)
    (hm : 1 < val m) :
    ∃ r : Limbs w, Work.Computes (montMul a (one m.length) m m0) (montMulDepth m.length) (.ok r) ∧
      r.length = m.length ∧ val r = x % val m := by
  have hne : m.length ≠ 0 := by
    intro hzero
    have hlt := val_lt m
    rw [hzero, Nat.mul_zero, Nat.pow_zero] at hlt
    omega
  obtain ⟨r, hrun, hlen, hrlt, hval⟩ :=
    montMul_computes hodd hm0 ha.length (length_one m.length) (.inl ha.lt)
  rw [val_one hne, Nat.mul_one] at hval
  have hx : val r ≡ x [MOD val m] :=
    Nat.ModEq.cancel_right_of_coprime (coprime_radix hodd) (hval.trans ha.modEq)
  refine ⟨r, hrun, hlen, ?_⟩
  rw [← Nat.mod_eq_of_lt hrlt]
  exact hx

/-! ## The ladder -/

/-- The exponent after some more bits from the top. -/
def extendExponent (e : Nat) (bits : List Bool) : Nat :=
  bits.foldl (fun e bit => 2 * e + bit.toNat) e

/-- The accumulator stays the form of a power.  Its value does not depend on the
buffer the squares go through. -/
theorem ladder_computes (hodd : val m % 2 = 1) (hm0 : IsNegInverse m m0) (ha : IsLooseForm m a x)
    (bits : List Bool) {r : Limbs w} {e : Nat} (hr : IsForm m r (x ^ e)) :
    ∃ r' : Limbs w, IsForm m r' (x ^ extendExponent e bits) ∧
      ∀ tmp, ∃ tmp', Work.Computes (ladder a m m0 bits r tmp) (montMulDepth m.length)
        (.ok (r', tmp')) := by
  induction bits generalizing r e with
  | nil => exact ⟨r, hr, fun tmp => ⟨tmp, (Work.computes_pure _).mono (Nat.zero_le _)⟩⟩
  | cons bit bits ih =>
      obtain ⟨square, hsquare, hsquareForm⟩ := hr.mul hodd hm0 hr.loose
      obtain ⟨product, hproduct, hproductForm⟩ := hsquareForm.mul hodd hm0 ha
      -- both products are computed, and the bit decides which of them is kept
      have hchoice : IsForm m (choose (Word.ofBool bit) product square)
          (x ^ (2 * e + bit.toNat)) := by
        rw [choose_eq _ (hproductForm.length.trans hsquareForm.length.symm)]
        cases bit with
        | false =>
            rw [Word.isOdd_ofBool, if_neg Bool.false_ne_true]
            rw [Bool.toNat_false, Nat.add_zero, Nat.two_mul, Nat.pow_add]
            exact hsquareForm
        | true =>
            rw [Word.isOdd_ofBool, if_pos rfl]
            rw [Bool.toNat_true, Nat.pow_succ, Nat.two_mul, Nat.pow_add]
            exact hproductForm
      obtain ⟨r', hr', hrun⟩ := ih hchoice
      refine ⟨r', hr', fun tmp => ?_⟩
      obtain ⟨tmp', hladder⟩ := hrun square
      exact ⟨tmp', hsquare.bind (hproduct.bind hladder)⟩

private theorem foldr_word_bits (x n v : Nat) :
    ((List.range n).map x.testBit).foldr (fun bit v => 2 * v + bit.toNat) v =
      x % 2 ^ n + 2 ^ n * v := by
  induction n generalizing v with
  | zero => simp [Nat.mod_one]
  | succ n ih =>
      have hbit : (x.testBit n).toNat = x / 2 ^ n % 2 := Nat.toNat_testBit x n
      rw [List.range_succ, List.map_append, List.foldr_append, ih, List.map_singleton,
        List.foldr_cons, List.foldr_nil, hbit, Nat.pow_succ, Nat.mod_mul]
      ring

/-- The bits of a number from the top make up the number. -/
theorem extendExponent_bitList (a : Limbs w) : extendExponent 0 (bitList a).reverse = val a := by
  unfold extendExponent
  rw [List.foldl_reverse]
  induction a with
  | nil => rfl
  | cons x xs ih =>
      have hword : x.bitList = (List.range w.bits).map x.toNat.testBit :=
        List.map_congr_left fun i _ => Word.testBit_eq x i
      unfold bitList
      rw [List.flatMap_cons, List.foldr_append, hword, foldr_word_bits,
        Nat.mod_eq_of_lt x.toNat_lt, val_cons]
      rw [bitList] at ih
      rw [ih]

theorem powerMont_computes (hodd : val m % 2 = 1) (hm0 : IsNegInverse m m0)
    (ha : IsLooseForm m a x) {one : Limbs w} (hone : IsForm m one 1) (e : Limbs w) :
    ∃ r : Limbs w, Work.Computes (powerMont a e m m0 one) (powerMontDepth m.length) (.ok r) ∧
      IsForm m r (x ^ val e) := by
  obtain ⟨r, hr, hrun⟩ := ladder_computes hodd hm0 ha (bitList e).reverse (r := one) (e := 0)
    (by rw [Nat.pow_zero]; exact hone)
  rw [extendExponent_bitList] at hr
  refine ⟨r, ?_, hr⟩
  unfold powerMont
  apply Work.Computes.withBuffer
  intro buffer _
  obtain ⟨tmp, hladder⟩ := hrun buffer
  exact ⟨tmp, Work.Computes.lift_bind (Checked.require_of hone.length _) hladder⟩

/-! ## Products and powers of ordinary numbers -/

theorem montConstant_eq (hodd : val m % 2 = 1) :
    montConstant m = .ok (m.headD 0).negInverse := by
  have hne : m ≠ [] := by
    rintro rfl
    simp at hodd
  have hhead : (m.headD 0).isOdd = true := by
    rw [Word.isOdd_iff, headD_mod_two, hodd]
  unfold montConstant Word.negInverse?
  rw [Checked.require_of hne, Checked.ok_bind, Checked.require_of hhead]
  rfl

/-- The product of any two numbers of the modulus' length: it leaves the radix behind
once, reduced or not, and the squared radix brings that back and reduces. -/
theorem mulMod_computes (hodd : val m % 2 = 1) (hm : 1 < val m) (ha : a.length = m.length)
    (hb : b.length = m.length) :
    ∃ r : Limbs w, Work.Computes (mulMod a b m) (mulModDepth m.length) (.ok r) ∧
      r.length = m.length ∧ val r = val a * val b % val m := by
  have hm0 := isNegInverse_of_odd hodd
  obtain ⟨t, hproduct, htlen, htval, -⟩ := montMul_computes_any hodd hm0 ha hb
  obtain ⟨r, henter, hr⟩ := isForm_enter hodd hm0 htlen hm
  refine ⟨r, ?_, hr.length, ?_⟩
  · have hdepth : mulModDepth m.length = m.length + (m.length + montMulDepth m.length) := by
      unfold mulModDepth
      omega
    unfold mulMod
    rw [hdepth]
    refine Work.Computes.lift_bind (montConstant_eq hodd) ?_
    refine Work.Computes.withBuffer fun _ _ => ⟨radixSquareMod m, ?_⟩
    refine Work.Computes.withBuffer fun _ _ => ⟨t, ?_⟩
    exact hproduct.bind (henter.then_pure fun r => ((r, radixSquareMod m), t))
  · rw [hr.val_eq]
    exact htval

/-- The power of any number of at most as many words as the modulus has, below the modulus
or not. -/
theorem powerMod_computes (hodd : val m % 2 = 1) (hm : 1 < val m) (ha : a.length ≤ m.length)
    (e : Limbs w) :
    ∃ r : Limbs w, Work.Computes (powerMod a e m) (powerModDepth m.length) (.ok r) ∧
      r.length = m.length ∧ val r = val a ^ val e % val m := by
  have hm0 := isNegInverse_of_odd hodd
  obtain ⟨base, henter, hbase⟩ := isForm_enter hodd hm0 (length_extend ha) hm
  obtain ⟨acc, hpower, hacc⟩ := powerMont_computes hodd hm0 hbase.loose (isForm_one hm) e
  obtain ⟨r, hleave, hlen, hval⟩ := isForm_leave hodd hm0 hacc hm
  rw [val_extend] at hval
  refine ⟨r, ?_, hlen, hval⟩
  have hdepth : montMulDepth m.length ≤ powerMontDepth m.length := by
    rw [powerMontDepth]
    omega
  unfold powerMod
  apply Work.Computes.lift_bind (Checked.require_of ha _)
  apply Work.Computes.lift_bind (montConstant_eq hodd)
  apply Work.Computes.withBuffer
  intro buffer _
  refine ⟨base ++ acc ++ one m.length ++ radixSquareMod m, ?_⟩
  apply (henter.mono hdepth).bind
  apply hpower.bind
  exact (hleave.mono hdepth).then_pure _

end CryptoPrimes.Modular
