import CryptoPrimes.Proofs.Modular.Power
import CryptoPrimes.Proofs.Trapping.Agree
import CryptoPrimes.Proofs.Trapping.Limbs

/-!
# Trapping modular arithmetic does not trap

A trapping Montgomery row is a plain one on a buffer that spells the accumulator
out: its words, the word above them, and a zero.  The word that takes the two
carries of a row holds their sum, and the lowest word is cleared by the choice of
the multiple, whatever the factors are; so the product of any two numbers of the
modulus' length has a result, reduced or not.

Powers and products of ordinary numbers only put such products together.
-/

namespace CryptoPrimes.Trapping

open Limbs CryptoPrimes.Modular

variable {w : Width} {a b m : Limbs w} {m0 : Word w}

/-! ## The constants -/

/-- A step that always has the result of `f` under an invariant can be repeated. -/
theorem iterate_eq {α : Type} {step : α → Checked α} {f : α → α} {P : α → Prop}
    (hstep : ∀ a, P a → step a = .ok (f a) ∧ P (f a)) (count : Nat) {a : α} (ha : P a) :
    iterate step count a = .ok (Nat.repeat f count a) ∧ P (Nat.repeat f count a) := by
  induction count with
  | zero => exact ⟨rfl, ha⟩
  | succ count ih =>
      obtain ⟨hrun, hnext⟩ := hstep _ ih.2
      refine ⟨?_, hnext⟩
      rw [iterate, ih.1]
      exact hrun

theorem length_doubleMod (h : a.length = m.length) : (doubleMod a m).length = m.length := by
  have hsum : (shlWithin a 1).1.length = m.length := by rw [length_shlWithin, h]
  have hdiff := (length_subBorrow hsum false).trans hsum
  unfold doubleMod reduceOnce addIf
  dsimp only
  split
  · exact (length_addCarry hdiff false).trans hdiff
  · exact hdiff

theorem doubleModChecked_eq (h : a.length = m.length) :
    doubleModChecked a m = .ok (doubleMod a m) := by
  rw [doubleModChecked, Checked.require_of h]
  rfl

theorem iterate_doubleMod (count : Nat) (h : a.length = m.length) :
    iterate (doubleModChecked · m) count a = .ok (Nat.repeat (doubleMod · m) count a) ∧
      (Nat.repeat (doubleMod · m) count a).length = m.length :=
  iterate_eq (P := fun a => a.length = m.length)
    (fun _ h => ⟨doubleModChecked_eq h, length_doubleMod h⟩) count h

theorem length_radixMod (m : Limbs w) : (Modular.radixMod m).length = m.length :=
  (iterate_doubleMod _ (length_one _)).2

theorem length_radixSquareMod (m : Limbs w) : (Modular.radixSquareMod m).length = m.length :=
  (iterate_doubleMod _ (length_radixMod m)).2

theorem radixMod_eq (hbits : w.bits * m.length < sizeLimit) :
    radixMod m = .ok (Modular.radixMod m) := by
  rw [radixMod, checkedSize_eq hbits]
  exact (iterate_doubleMod _ (length_one _)).1

theorem radixSquareMod_eq (hbits : w.bits * m.length < sizeLimit) :
    radixSquareMod m = .ok (Modular.radixSquareMod m) := by
  rw [radixSquareMod, checkedSize_eq hbits, radixMod_eq hbits]
  exact (iterate_doubleMod _ (length_radixMod m)).1

/-! ## The rows -/

theorem addToBuffer_eq {low rest : Limbs w} {top : Word w} (h : low.length = a.length)
    (y : Word w) :
    addToBuffer (low ++ top :: rest) a y =
      .ok ((mulAdd low a y 0).1 ++ (Word.addCarry top (mulAdd low a y 0).2 false).1 :: rest,
        (Word.addCarry top (mulAdd low a y 0).2 false).2) := by
  have hrow := length_mulAdd h y 0
  have hslice : slice (low ++ top :: rest) 0 a.length = .ok low :=
    slice_append (a := []) rfl (by omega)
  have hwrite : write (low ++ top :: rest) 0 a.length (mulAdd low a y 0).1 =
      .ok ((mulAdd low a y 0).1 ++ top :: rest) := write_append (a := []) rfl (by omega) hrow
  rw [addToBuffer, hslice, Checked.ok_bind, addMulWord_eq h, Checked.ok_bind, hwrite,
    Checked.ok_bind, wordAt_append (hrow.trans h), Checked.ok_bind]
  dsimp only
  rw [setWord_append (hrow.trans h), Checked.ok_bind]
  rfl

/-- A word holds the sum of two carries. -/
theorem carries_lt (w : Width) (x y : Bool) : x.toNat + y.toNat < 2 ^ w.bits := by
  have hx := Bool.toNat_le x
  have hy := Bool.toNat_le y
  have hbits : 2 ^ 2 ≤ 2 ^ w.bits := Nat.pow_le_pow_right (by decide) (by cases w <;> decide)
  omega

theorem moveDown_eq {t : Limbs w} {x : Word w} (hx : x = 0) :
    moveDown (x :: t) t.length = .ok (t ++ [0]) := by
  have hlength : (x :: t).length = t.length + 1 := rfl
  obtain ⟨z, hz⟩ : ∃ z, (x :: t).drop t.length = [z] :=
    List.length_eq_one_iff.mp (by rw [List.length_drop, hlength, Nat.add_sub_cancel_left])
  have hslice : slice (x :: t) 1 (x :: t).length = .ok t :=
    slice_back (a := x :: t) (by omega)
  have hwrite : write (x :: t) 0 t.length t = .ok (t ++ [z]) := by
    rw [write_front rfl (by omega), hz]
  have hat : wordAt (x :: t) 0 = .ok x := rfl
  rw [moveDown, hat, Checked.ok_bind, Checked.require_of hx, Checked.ok_bind, hslice,
    Checked.ok_bind, hwrite, Checked.ok_bind, setWord_append rfl]

/-- The buffer of an accumulator. -/
def buffer (t : Accumulator w) : Limbs w := t.low ++ [t.top, 0]

/-- A trapping row does what a plain row does that has a result. -/
theorem montRow_eq (hne : m ≠ []) (ha : a.length = m.length) {t t' : Accumulator w}
    (hlow : t.low.length = m.length) {y : Word w} (hstep : montStep a m m0 t y = .ok t')
    (hsize : m.length + 1 < sizeLimit) :
    montRow a m m0 (buffer t) y = .ok (buffer t') ∧ t'.low.length = m.length := by
  have hlow' : t.low.length = a.length := hlow.trans ha.symm
  have hrow := (length_mulAdd hlow' y 0).trans hlow
  rw [montRow, checkedSize_eq hsize, Checked.ok_bind, buffer, addToBuffer_eq hlow', Checked.ok_bind]
  simp only [montStep] at hstep
  generalize mulAdd t.low a y 0 = row at *
  generalize Word.addCarry t.top row.2 false = s at *
  -- the row that clears the lowest word
  have hclear := (length_mulAdd hrow (row.1.headD 0 * m0) 0).trans hrow
  have hat : wordAt (row.1 ++ [s.1, Word.ofBool s.2]) 0 = .ok (row.1.headD 0) := by
    obtain ⟨r, rs, hr⟩ := exists_cons_of_length hrow hne
    rw [hr]
    rfl
  dsimp only
  rw [setWord_append_succ hrow, Checked.ok_bind, hat, Checked.ok_bind, addToBuffer_eq hrow,
    Checked.ok_bind]
  generalize mulAdd row.1 m (row.1.headD 0 * m0) 0 = clear at *
  generalize Word.addCarry s.1 clear.2 false = s' at *
  dsimp only
  rw [wordAt_append_succ hclear, Checked.ok_bind,
    wordSum_eq (by rw [Word.toNat_ofBool, Word.toNat_ofBool]; exact carries_lt w _ _),
    Checked.ok_bind, setWord_append_succ hclear, Checked.ok_bind]
  -- the move down
  obtain ⟨_, hzero, hresult⟩ := Checked.bind_eq_ok hstep
  obtain ⟨c, cs, hc⟩ := exists_cons_of_length hclear hne
  rw [hc] at hzero hclear hresult ⊢
  have hlast : m.length + 1 = (cs ++ [s'.1, Word.ofBool s.2 + Word.ofBool s'.2]).length := by
    rw [List.length_append, ← hclear]
    rfl
  have hzero : c = 0 := Checked.of_require hzero
  rw [hlast, List.cons_append, moveDown_eq hzero, ← Except.ok.inj hresult]
  refine ⟨by simp [buffer], ?_⟩
  rw [← hclear]
  simp

theorem montRows_eq (hne : m ≠ []) (ha : a.length = m.length) (ys : Limbs w)
    {t t' : Accumulator w} (hlow : t.low.length = m.length)
    (hrows : Modular.montRows a m m0 t ys = .ok t') (hsize : m.length + 1 < sizeLimit) :
    montRows a m m0 (buffer t) ys = .ok (buffer t') ∧ t'.low.length = m.length := by
  induction ys generalizing t with
  | nil =>
      cases hrows
      exact ⟨rfl, hlow⟩
  | cons y ys ih =>
      obtain ⟨t₁, hstep, hrest⟩ := Checked.bind_eq_ok hrows
      obtain ⟨hrow, hlow₁⟩ := montRow_eq hne ha hlow hstep hsize
      rw [montRows, hrow]
      exact ih hlow₁ hrest

theorem montFinish_eq {t : Accumulator w} (hlow : t.low.length = m.length) :
    montFinish m (buffer t) = .ok (Modular.montFinish m t) ∧
      (Modular.montFinish m t).length = m.length := by
  have hdiff := (length_subBorrow hlow false).trans hlow
  have hslice : slice (buffer t) 0 m.length = .ok t.low :=
    slice_append (a := []) rfl (by omega)
  have htop : wordAt (buffer t) m.length = .ok t.top := wordAt_append hlow
  constructor
  · rw [montFinish, hslice, Checked.ok_bind, sub_eq hlow.symm hlow, Checked.ok_bind, htop,
      Checked.ok_bind, assignIf_eq _ (hdiff.trans hlow.symm)]
    rfl
  · unfold Modular.montFinish
    dsimp only
    rw [choose_eq _ (hlow.trans hdiff.symm)]
    split
    · exact hlow
    · exact hdiff

/-! ## Products -/

/-- A Montgomery product of numbers of the modulus' length, whose buffer has a size. -/
theorem montMul_agree_of_room (hodd : val m % 2 = 1) (hm0 : IsNegInverse m m0)
    (ha : a.length = m.length) (hb : b.length = m.length) (hroom : m.length + 2 < sizeLimit) :
    ∃ r : Limbs w, Work.Agree (Modular.montMul a b m m0) (montMul a b m m0)
      (montMulDepth m.length) (.ok r) ∧ r.length = m.length := by
  have hne : m ≠ [] := by
    rintro rfl
    simp at hodd
  have hstart : (Accumulator.mk (zeros m.length) (0 : Word w)).total < val a + val m := by
    have : 0 < val m := by omega
    simp only [Accumulator.total, val_zeros, Word.toNat_zero]
    omega
  obtain ⟨t, -, hrows, -⟩ := montRows_spec hm0 hne ha b (length_zeros _) hstart
  obtain ⟨hrows', hlow⟩ := montRows_eq hne ha b (length_zeros _) hrows (by omega)
  obtain ⟨hfinish, hlen⟩ := montFinish_eq hlow
  refine ⟨_, ⟨montMul_of_rows hodd ha hb hrows, ?_⟩, hlen⟩
  unfold montMul
  refine .lift_bind (Checked.require_of ⟨ha, hb⟩ _) ?_
  refine .lift_bind (Checked.require_of ((isOdd_iff m).mpr hodd) _) ?_
  refine .lift_bind (checkedSize_eq hroom) ?_
  refine @Work.Computes.withBuffer w _ _ 0 _ _ fun scratch hscratch => ⟨buffer t, ?_⟩
  have hclean : cleared scratch = buffer ⟨zeros m.length, 0⟩ := by
    rw [cleared_eq_zeros, hscratch]
    exact List.replicate_append_replicate.symm
  rw [hclean]
  exact .lift_bind hrows' (.lift_bind hfinish (Work.computes_pure _))

/-- Numbers whose bits can be counted leave room for the two words of a product's buffer
beyond them. -/
theorem room_of_bits {n : Nat} (h : w.bits * n < sizeLimit) : n + 2 < sizeLimit := by
  have hlength := length_lt_of_bits h
  unfold sizeLimit
  omega

theorem montMul_agree (hodd : val m % 2 = 1) (hm0 : IsNegInverse m m0)
    (ha : a.length = m.length) (hb : b.length = m.length)
    (hbits : w.bits * m.length < sizeLimit) :
    ∃ r : Limbs w, Work.Agree (Modular.montMul a b m m0) (montMul a b m m0)
      (montMulDepth m.length) (.ok r) ∧ r.length = m.length :=
  montMul_agree_of_room hodd hm0 ha hb (room_of_bits hbits)

theorem mulMod_agree (hodd : val m % 2 = 1) (ha : a.length = m.length) (hb : b.length = m.length)
    (hbits : w.bits * m.length < sizeLimit) :
    ∃ r : Limbs w, Work.Agree (Modular.mulMod a b m) (mulMod a b m) (mulModDepth m.length)
      (.ok r) ∧ r.length = m.length := by
  have hm0 := isNegInverse_of_odd hodd
  obtain ⟨t, ht, htlen⟩ := montMul_agree hodd hm0 ha hb hbits
  obtain ⟨r, hr, hrlen⟩ := montMul_agree hodd hm0 htlen (length_radixSquareMod m) hbits
  refine ⟨r, ?_, hrlen⟩
  refine .settle_both (montConstant_eq hodd) (montConstant_eq hodd) ?_
  have hdepth : mulModDepth m.length = m.length + (m.length + montMulDepth m.length) := by
    unfold mulModDepth
    omega
  rw [hdepth]
  refine .withBuffer fun _ _ => ⟨Modular.radixSquareMod m, .withBuffer fun _ _ => ⟨t, ?_⟩⟩
  refine .settle (radixSquareMod_eq hbits) ?_
  exact ht.bind (hr.bind ((Work.agree_pure _).mono (Nat.zero_le _)))

/-! ## Powers -/

theorem choose_not (bit : Bool) (h : a.length = b.length) :
    choose (Word.ofBool !bit) b a = choose (Word.ofBool bit) a b := by
  rw [choose_eq _ h, choose_eq _ h.symm, Word.isOdd_ofBool, Word.isOdd_ofBool]
  cases bit <;> rfl

theorem ladder_agree (hodd : val m % 2 = 1) (hm0 : IsNegInverse m m0) (ha : a.length = m.length)
    (hroom : m.length + 2 < sizeLimit) (bits : List Bool) {r : Limbs w}
    (hr : r.length = m.length) :
    ∃ r' : Limbs w, r'.length = m.length ∧ ∀ tmp, ∃ tmp',
      Work.Agree (Modular.ladder a m m0 bits r tmp) (ladder a m m0 bits r tmp)
        (montMulDepth m.length) (.ok (r', tmp')) := by
  induction bits generalizing r with
  | nil => exact ⟨r, hr, fun tmp => ⟨tmp, (Work.agree_pure _).mono (Nat.zero_le _)⟩⟩
  | cons bit bits ih =>
      obtain ⟨square, hsquare, hslen⟩ := montMul_agree_of_room hodd hm0 hr hr hroom
      obtain ⟨product, hproduct, hplen⟩ := montMul_agree_of_room hodd hm0 hslen ha hroom
      have hsame := hplen.trans hslen.symm
      have hkept : (choose (Word.ofBool bit) product square).length = m.length := by
        rw [choose_eq _ hsame]
        split
        · exact hplen
        · exact hslen
      obtain ⟨r', hlen, hrest⟩ := ih hkept
      refine ⟨r', hlen, fun _ => ?_⟩
      obtain ⟨tmp', hrest⟩ := hrest square
      exact ⟨tmp', hsquare.bind (hproduct.bind (.settle (by
        rw [assignIf_eq _ hsame, choose_not _ hsame]) hrest))⟩

/-- A power in Montgomery form, where the buffers of its products have a size. -/
theorem powerMont_agree_of_room (hodd : val m % 2 = 1) (hm0 : IsNegInverse m m0)
    (ha : a.length = m.length) {one : Limbs w} (hone : one.length = m.length)
    (hroom : m.length + 2 < sizeLimit) (e : Limbs w) :
    ∃ r : Limbs w, Work.Agree (Modular.powerMont a e m m0 one) (powerMont a e m m0 one)
      (powerMontDepth m.length) (.ok r) ∧ r.length = m.length := by
  obtain ⟨r, hlen, hrun⟩ := ladder_agree hodd hm0 ha hroom (bitList e).reverse hone
  refine ⟨r, .withBuffer fun buffer _ => ?_, hlen⟩
  obtain ⟨tmp, hladder⟩ := hrun buffer
  exact ⟨tmp, .settle_both (Checked.require_of hone _) (Checked.require_of hone _) hladder⟩

theorem powerMont_agree (hodd : val m % 2 = 1) (hm0 : IsNegInverse m m0)
    (ha : a.length = m.length) {one : Limbs w} (hone : one.length = m.length)
    (hbits : w.bits * m.length < sizeLimit) (e : Limbs w) :
    ∃ r : Limbs w, Work.Agree (Modular.powerMont a e m m0 one) (powerMont a e m m0 one)
      (powerMontDepth m.length) (.ok r) ∧ r.length = m.length :=
  powerMont_agree_of_room hodd hm0 ha hone (room_of_bits hbits) e

theorem powerMod_agree (hodd : val m % 2 = 1) (ha : a.length ≤ m.length)
    (hbits : w.bits * m.length < sizeLimit) (e : Limbs w) :
    ∃ r : Limbs w, Work.Agree (Modular.powerMod a e m) (powerMod a e m)
      (powerModDepth m.length) (.ok r) ∧ r.length = m.length := by
  have hm0 := isNegInverse_of_odd hodd
  have hne : m.length ≠ 0 := by
    intro h
    rw [List.length_eq_zero_iff.mp h] at hodd
    simp at hodd
  obtain ⟨base, hbase, hblen⟩ :=
    montMul_agree hodd hm0 (length_extend ha) (length_radixSquareMod m) hbits
  obtain ⟨acc, hacc, halen⟩ :=
    powerMont_agree hodd hm0 hblen (length_radixMod m) hbits e
  obtain ⟨r, hr, hrlen⟩ := montMul_agree hodd hm0 halen (length_one _) hbits
  have hle : montMulDepth m.length ≤ powerMontDepth m.length := Nat.le_add_left _ _
  have hunit : setWord (zeros m.length : Limbs w) 0 1 = .ok (one m.length) := by
    rw [setWord_zeros hne, one_eq_extend hne]
  refine ⟨r, ?_, hrlen⟩
  refine .settle_both (Checked.require_of ha _) (Checked.require_of ha _) ?_
  refine .settle_both (montConstant_eq hodd) (montConstant_eq hodd) ?_
  refine .withBuffer fun _ _ => ⟨base ++ acc ++ one m.length ++ Modular.radixSquareMod m, ?_⟩
  refine .settle (radixSquareMod_eq hbits) (.settle (write_zeros rfl ha) ?_)
  refine (hbase.mono hle).bind (.settle (radixMod_eq hbits) ?_)
  refine hacc.bind (.settle hunit ?_)
  exact (hr.mono hle).bind ((Work.agree_pure _).mono (Nat.zero_le _))

end CryptoPrimes.Trapping
