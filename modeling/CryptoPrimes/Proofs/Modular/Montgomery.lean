import CryptoPrimes.Modular.Montgomery
import CryptoPrimes.Proofs.Limbs.Product
import CryptoPrimes.Proofs.Limbs.Select
import CryptoPrimes.Proofs.Modular.Masked
import CryptoPrimes.Proofs.Scratch

/-!
# The Montgomery product

Write `T` for the accumulator with its top word and `B` for the radix.  One step
makes it `T'` with `B * T' = T + a * y + m * u` (`montStep_spec`): a row of `a` and
a multiple of the modulus that clears the lowest word, which are the same addition
(`total_mulAdd`), and a move down (`total_tail`).  After the words of `b`, the
accumulator times `R` is `a * b` plus a multiple of `m`.

`T < a + m` is what a step preserves.  It keeps the top word at 0 or 1, so that the
closing subtraction never has to take the modulus off twice and the product is right
for any factors (`montMul_computes_any`).  When one factor is below the modulus it
leaves less than twice the modulus, and the subtraction reduces completely
(`montMul_computes`).
-/

namespace CryptoPrimes.Modular

open Limbs

variable {w : Width}

/-- Times the lowest word of the modulus, `m0` is minus one. -/
def IsNegInverse (m : Limbs w) (m0 : Word w) : Prop :=
  (m0.toNat * (m.headD 0).toNat + 1) % 2 ^ w.bits = 0

theorem isNegInverse_of_odd {m : Limbs w} (hodd : val m % 2 = 1) :
    IsNegInverse m (m.headD 0).negInverse :=
  Word.negInverse_mul (by rw [headD_mod_two, hodd])

/-- The number in an accumulator. -/
def Accumulator.total (t : Accumulator w) : Nat :=
  val t.low + 2 ^ (w.bits * t.low.length) * t.top.toNat

/-! ## One row -/

/-- The chosen multiple of the modulus clears the lowest word. -/
theorem clearing_multiple {B r low m bottom m0 : Nat} (hr : r ≡ low [MOD B])
    (hm : m ≡ bottom [MOD B]) (hm0 : (m0 * bottom + 1) % B = 0) :
    (r + m * (low * m0 % B)) % B = 0 := by
  have hcong : r + m * (low * m0 % B) ≡ low * (m0 * bottom + 1) [MOD B] := by
    calc r + m * (low * m0 % B)
        ≡ low + bottom * (low * m0) [MOD B] := hr.add (hm.mul (Nat.mod_modEq _ _))
      _ = low * (m0 * bottom + 1) := by ring
  have hzero : low * (m0 * bottom + 1) ≡ 0 [MOD B] :=
    Nat.modEq_zero_iff_dvd.mpr (Dvd.dvd.mul_left (Nat.dvd_of_mod_eq_zero hm0) _)
  have h := hcong.trans hzero
  rwa [Nat.ModEq, Nat.zero_mod] at h

theorem val_modEq_headD (a : Limbs w) : val a ≡ (a.headD 0).toNat [MOD 2 ^ w.bits] := by
  rw [← val_headD_tail a]
  exact Nat.add_mul_mod_self_left _ _ _

/-- Two carries fit a word. -/
theorem toNat_ofBool_add (x y : Bool) :
    (Word.ofBool x + Word.ofBool y : Word w).toNat = x.toNat + y.toNat := by
  rw [Word.toNat_add, Word.toNat_ofBool, Word.toNat_ofBool]
  refine Nat.mod_eq_of_lt (lt_of_le_of_lt (Nat.add_le_add (Bool.toNat_le x) (Bool.toNat_le y)) ?_)
  cases w <;> decide

/-- A sum below `a + m`, to which words times `a` and times `m` were added, is below
`a + m` again when it is divided by the radix. -/
theorem step_bound {B T T' a m y u : Nat} (h : B * T' = T + a * y + m * u) (hT : T < a + m)
    (hy : y < B) (hu : u < B) : T' < a + m := by
  have hya := Nat.mul_le_mul_left a (Nat.succ_le_of_lt hy)
  have hum := Nat.mul_le_mul_left m (Nat.succ_le_of_lt hu)
  rw [Nat.mul_succ, Nat.mul_comm a B] at hya
  rw [Nat.mul_succ, Nat.mul_comm m B] at hum
  have hscaled : B * T' < B * (a + m) := by
    rw [h, Nat.mul_add]
    omega
  exact Nat.lt_of_mul_lt_mul_left hscaled

variable {a b m : Limbs w} {m0 : Word w}

/-- A multiple of `a` is added to the accumulator; the carry is what leaves its top. -/
theorem total_mulAdd {t : Accumulator w} (h : t.low.length = a.length) (y : Word w) :
    (⟨(mulAdd t.low a y 0).1, (Word.addCarry t.top (mulAdd t.low a y 0).2 false).1⟩ :
        Accumulator w).total + 2 ^ w.bits * 2 ^ (w.bits * t.low.length) *
          (Word.addCarry t.top (mulAdd t.low a y 0).2 false).2.toNat =
      t.total + val a * y.toNat := by
  have hrow := val_mulAdd h y 0
  rw [Word.toNat_zero, Nat.add_zero] at hrow
  have htop := Word.toNat_addCarry t.top (mulAdd t.low a y 0).2 false
  rw [Bool.toNat_false, Nat.add_zero] at htop
  unfold Accumulator.total
  rw [length_mulAdd h]
  generalize 2 ^ (w.bits * t.low.length) = P at *
  generalize Word.addCarry t.top (mulAdd t.low a y 0).2 false = s at *
  calc val (mulAdd t.low a y 0).1 + P * s.1.toNat + 2 ^ w.bits * P * s.2.toNat
      = val (mulAdd t.low a y 0).1 + P * (s.1.toNat + 2 ^ w.bits * s.2.toNat) := by ring
    _ = val (mulAdd t.low a y 0).1 + P * (mulAdd t.low a y 0).2.toNat + P * t.top.toNat := by
        rw [htop]
        ring
    _ = val t.low + P * t.top.toNat + val a * y.toNat := by
        rw [hrow]
        ring

theorem total_modEq {t : Accumulator w} (hne : t.low ≠ []) :
    t.total ≡ (t.low.headD 0).toNat [MOD 2 ^ w.bits] := by
  obtain ⟨x, xs, hlow⟩ := List.exists_cons_of_ne_nil hne
  have hradix : 2 ^ w.bits ∣ 2 ^ (w.bits * t.low.length) * t.top.toNat := by
    rw [hlow, List.length_cons, radix_succ, Nat.mul_assoc]
    exact Nat.dvd_mul_right _ _
  have h := (val_modEq_headD t.low).add (Nat.modEq_zero_iff_dvd.mpr hradix)
  rwa [Nat.add_zero] at h

/-- Dropping a lowest word of zero divides by the radix; its place is taken from above. -/
theorem total_tail {t : Accumulator w} (hne : t.low ≠ []) (hzero : t.low.headD 0 = 0) (c : Word w) :
    2 ^ w.bits * (⟨t.low.tail ++ [t.top], c⟩ : Accumulator w).total =
      t.total + 2 ^ w.bits * 2 ^ (w.bits * t.low.length) * c.toNat := by
  obtain ⟨x, xs, hlow⟩ := List.exists_cons_of_ne_nil hne
  rw [hlow, List.headD_cons] at hzero
  unfold Accumulator.total
  rw [hlow, hzero, List.tail_cons, List.length_append, List.length_singleton, List.length_cons,
    val_append, val_cons, val_nil, val_cons, radix_succ, Word.toNat_zero]
  ring

/-- A step never trips over its lowest word, divides by the radix what it adds
up, and keeps the accumulator below the sum of factor and modulus. -/
theorem montStep_spec (hm0 : IsNegInverse m m0) (hne : m ≠ []) (ha : a.length = m.length)
    {t : Accumulator w} (hlow : t.low.length = m.length) (ht : t.total < val a + val m) (y : Word w) :
    ∃ (t' : Accumulator w) (u : Nat), montStep a m m0 t y = .ok t' ∧
      t'.low.length = m.length ∧ u < 2 ^ w.bits ∧
      2 ^ w.bits * t'.total = t.total + val a * y.toNat + val m * u ∧
      t'.total < val a + val m := by
  have hadded := total_mulAdd (hlow.trans ha.symm) y
  have hrowlen : (mulAdd t.low a y 0).1.length = m.length :=
    (length_mulAdd (hlow.trans ha.symm) y 0).trans hlow
  generalize hrow : mulAdd t.low a y 0 = row at hadded hrowlen
  generalize hs : Word.addCarry t.top row.2 false = s at hadded
  generalize hu : row.1.headD 0 * m0 = u
  have hcleared := total_mulAdd (t := ⟨row.1, s.1⟩) hrowlen u
  have hlength : (mulAdd row.1 m u 0).1.length = m.length :=
    (length_mulAdd hrowlen u 0).trans hrowlen
  simp only at hcleared
  generalize hclear : mulAdd row.1 m u 0 = cleared at hcleared hlength
  generalize hs' : Word.addCarry s.1 cleared.2 false = s' at hcleared
  have hrowne : row.1 ≠ [] := List.ne_nil_of_length_pos (hrowlen ▸ List.length_pos_iff.mpr hne)
  have hclearne : cleared.1 ≠ [] := List.ne_nil_of_length_pos (hlength ▸ List.length_pos_iff.mpr hne)
  -- the multiple of the modulus clears the lowest word, so dropping it divides by the radix
  have hzero : cleared.1.headD 0 = 0 := by
    have hmultiple := clearing_multiple (total_modEq (t := ⟨row.1, s.1⟩) hrowne)
      (val_modEq_headD m) hm0
    rw [← Word.toNat_mul, hu, ← hcleared, Nat.mul_assoc, Nat.add_mul_mod_self_left] at hmultiple
    have h := total_modEq (t := ⟨cleared.1, s'.1⟩) hclearne
    rw [Nat.ModEq, hmultiple, Nat.mod_eq_of_lt (Word.toNat_lt _)] at h
    exact Word.ext (h.symm.trans Word.toNat_zero.symm)
  have hmoved := total_tail (t := ⟨cleared.1, s'.1⟩) hclearne hzero
    (Word.ofBool s.2 + Word.ofBool s'.2)
  have htotal : 2 ^ w.bits * (Accumulator.mk (cleared.1.tail ++ [s'.1])
      (Word.ofBool s.2 + Word.ofBool s'.2)).total = t.total + val a * y.toNat + val m * u.toNat := by
    rw [hmoved, toNat_ofBool_add, Nat.mul_add, ← hadded, hlow, hlength]
    rw [hrowlen] at hcleared
    omega
  refine ⟨_, u.toNat, ?_, ?_, u.toNat_lt, htotal, step_bound htotal ht y.toNat_lt u.toNat_lt⟩
  · simp only [montStep, hrow, hs, hu, hclear, hs']
    rw [Checked.require_of hzero]
    rfl
  · rw [List.length_append, List.length_tail, List.length_singleton, hlength]
    exact Nat.sub_add_cancel (List.length_pos_iff.mpr hne)

/-! ## All rows -/

theorem montRows_spec (hm0 : IsNegInverse m m0) (hne : m ≠ []) (ha : a.length = m.length)
    (ys : Limbs w) {t : Accumulator w} (hlow : t.low.length = m.length)
    (ht : t.total < val a + val m) :
    ∃ (t' : Accumulator w) (U : Nat), montRows a m m0 t ys = .ok t' ∧
      t'.low.length = m.length ∧ U < 2 ^ (w.bits * ys.length) ∧
      2 ^ (w.bits * ys.length) * t'.total = t.total + val a * val ys + val m * U ∧
      t'.total < val a + val m := by
  induction ys generalizing t with
  | nil => exact ⟨t, 0, rfl, hlow, by simp, by simp, ht⟩
  | cons y ys ih =>
      obtain ⟨t₁, u, hstep, hlow₁, hu, htotal₁, ht₁⟩ := montStep_spec hm0 hne ha hlow ht y
      obtain ⟨t₂, U, hrows, hlow₂, hU, htotal₂, ht₂⟩ := ih hlow₁ ht₁
      refine ⟨t₂, u + 2 ^ w.bits * U, ?_, hlow₂, ?_, ?_, ht₂⟩
      · unfold montRows
        rw [hstep]
        exact hrows
      · rw [List.length_cons, radix_succ]
        have hscaled := Nat.mul_le_mul_left (2 ^ w.bits) (Nat.succ_le_of_lt hU)
        rw [Nat.mul_succ] at hscaled
        omega
      · rw [List.length_cons, radix_succ, val_cons]
        calc 2 ^ w.bits * 2 ^ (w.bits * ys.length) * t₂.total
            = 2 ^ w.bits * (2 ^ (w.bits * ys.length) * t₂.total) := Nat.mul_assoc _ _ _
          _ = 2 ^ w.bits * t₁.total + 2 ^ w.bits * (val a * val ys + val m * U) := by
                rw [htotal₂]; ring
          _ = t.total + val a * (y.toNat + 2 ^ w.bits * val ys) +
                val m * (u + 2 ^ w.bits * U) := by rw [htotal₁]; ring

/-- One subtraction of the modulus, unless the accumulator is below it.  An accumulator
that exceeds its words by the modulus or more would keep more than the words hold. -/
theorem montFinish_spec {t : Accumulator w} (hlow : t.low.length = m.length)
    (ht : t.total < 2 ^ (w.bits * m.length) + val m) :
    (montFinish m t).length = m.length ∧
      val (montFinish m t) = if t.total < val m then t.total else t.total - val m := by
  have hdlen := (length_subBorrow hlow false).trans hlow
  unfold Accumulator.total at ht ⊢
  rw [hlow] at ht ⊢
  obtain ⟨hborrow, hvalue⟩ := subBorrow_once hlow ht
  have hm := val_lt m
  -- the word above the accumulator holds one bit
  have htop : t.top.toNat < 2 := by
    have hlt : 2 ^ (w.bits * m.length) * t.top.toNat < 2 ^ (w.bits * m.length) * 2 := by omega
    exact Nat.lt_of_mul_lt_mul_left hlt
  have heven : t.top.isOdd = false ↔ t.top.toNat = 0 := by
    rw [← Bool.not_eq_true, Word.isOdd_iff]
    omega
  simp only [montFinish]
  generalize subBorrow t.low m false = d at *
  rw [choose_eq _ (hlow.trans hdlen.symm), Word.isOdd_ofBool_and_complement]
  rcases Nat.lt_or_ge (val t.low + 2 ^ (w.bits * m.length) * t.top.toNat) (val m) with
    hsmall | hlarge
  · obtain ⟨hflag, hzero⟩ := hborrow.mpr hsmall
    rw [if_pos hsmall, hflag, heven.mpr hzero, Bool.not_false, Bool.and_true, if_pos rfl, hzero,
      Nat.mul_zero, Nat.add_zero]
    exact ⟨hlow, rfl⟩
  · have hflag : ¬ (d.2 && !t.top.isOdd) = true := by
      intro hflag
      rw [Bool.and_eq_true, Bool.not_eq_true'] at hflag
      exact absurd (hborrow.mp ⟨hflag.1, heven.mp hflag.2⟩) (not_lt.mpr hlarge)
    rw [if_neg hflag, if_neg (not_lt.mpr hlarge)]
    exact ⟨hdlen, hvalue hlarge⟩

/-! ## The product -/

theorem cleared_eq_zeros (a : Limbs w) : cleared a = zeros a.length := by
  unfold cleared zeros
  exact List.map_const'

/-- The product is what the rows leave, less the modulus if that is needed. -/
theorem montMul_of_rows (hodd : val m % 2 = 1) (ha : a.length = m.length)
    (hb : b.length = m.length) {t : Accumulator w}
    (hrows : montRows a m m0 ⟨zeros m.length, 0⟩ b = .ok t) :
    Work.Computes (montMul a b m m0) (montMulDepth m.length) (.ok (montFinish m t)) := by
  unfold montMul
  refine Work.Computes.lift_bind (Checked.require_of ⟨ha, hb⟩ _) ?_
  apply Work.Computes.lift_bind (Checked.require_of ((isOdd_iff m).mpr hodd) _)
  refine @Work.Computes.withBuffer w _ _ 0 _ _ (fun buffer hbuffer => ⟨t.low ++ [t.top, 0], ?_⟩)
  have hclean : cleared (buffer.take m.length) = zeros m.length := by
    rw [cleared_eq_zeros, List.length_take, hbuffer]
    congr 1
    unfold montMulDepth
    omega
  rw [hclean]
  exact Work.Computes.lift_bind hrows (Work.computes_pure _)

/-- A sum of which one factor is below the modulus is below twice the modulus. -/
theorem total_lt_of_reduced {total U : Nat} (ha : val a < 2 ^ (w.bits * m.length))
    (hU : U < 2 ^ (w.bits * m.length)) (hm : 0 < val m) (ht : total < val a + val m)
    (htotal : 2 ^ (w.bits * m.length) * total = val a * val b + val m * U)
    (hlt : val a < val m ∨ val b < val m) : total < 2 * val m := by
  rcases hlt with h | h
  · omega
  · -- a first factor that is not reduced still fits its words
    have hscaled : 2 ^ (w.bits * m.length) * total < 2 ^ (w.bits * m.length) * (2 * val m) := by
      calc 2 ^ (w.bits * m.length) * total = val a * val b + val m * U := htotal
        _ < 2 ^ (w.bits * m.length) * val m + val m * 2 ^ (w.bits * m.length) :=
            Nat.add_lt_add_of_le_of_lt (Nat.mul_le_mul ha.le h.le)
              (Nat.mul_lt_mul_of_pos_left hU hm)
        _ = 2 ^ (w.bits * m.length) * (2 * val m) := by ring
    exact Nat.lt_of_mul_lt_mul_left hscaled

/-- The Montgomery product of any two numbers of the modulus' length: `R` times it is
the product modulo `m`.  It is reduced if one of the two is. -/
theorem montMul_computes_any (hodd : val m % 2 = 1) (hm0 : IsNegInverse m m0)
    (ha : a.length = m.length) (hb : b.length = m.length) :
    ∃ r : Limbs w, Work.Computes (montMul a b m m0) (montMulDepth m.length) (.ok r) ∧
      r.length = m.length ∧ val r * 2 ^ (w.bits * m.length) ≡ val a * val b [MOD val m] ∧
      (val a < val m ∨ val b < val m → val r < val m) := by
  have hmpos : 0 < val m := by omega
  have hne : m ≠ [] := by
    rintro rfl
    simp at hmpos
  have halt := val_lt a
  rw [ha] at halt
  have hstart : (Accumulator.mk (zeros m.length) (0 : Word w)).total = 0 := by
    simp [Accumulator.total]
  obtain ⟨t, U, hrows, hlow, hU, htotal, ht⟩ := montRows_spec hm0 hne ha b
    (t := ⟨zeros m.length, 0⟩) (length_zeros _) (by rw [hstart]; omega)
  rw [hstart, Nat.zero_add, hb] at htotal
  rw [hb] at hU
  obtain ⟨hlen, hval⟩ := montFinish_spec hlow (by omega)
  have hcongr : val (montFinish m t) ≡ t.total [MOD val m] := by
    rw [hval]
    split
    · rfl
    · exact Nat.ModEq.symm (Nat.mod_eq_sub_mod (by omega))
  refine ⟨montFinish m t, montMul_of_rows hodd ha hb hrows, hlen, ?_, fun hlt => ?_⟩
  · calc val (montFinish m t) * 2 ^ (w.bits * m.length)
        ≡ t.total * 2 ^ (w.bits * m.length) [MOD val m] := hcongr.mul_right _
      _ = val a * val b + val m * U := by rw [← htotal, Nat.mul_comm]
      _ ≡ val a * val b [MOD val m] := Nat.add_mul_mod_self_left _ _ _
  · have hsmall := total_lt_of_reduced halt hU hmpos ht htotal hlt
    rw [hval]
    split
    · assumption
    · omega

/-- The Montgomery product of two numbers of which one is reduced. -/
theorem montMul_computes (hodd : val m % 2 = 1) (hm0 : IsNegInverse m m0)
    (ha : a.length = m.length) (hb : b.length = m.length)
    (hlt : val a < val m ∨ val b < val m) :
    ∃ r : Limbs w, Work.Computes (montMul a b m m0) (montMulDepth m.length) (.ok r) ∧
      r.length = m.length ∧ val r < val m ∧
      val r * 2 ^ (w.bits * m.length) ≡ val a * val b [MOD val m] := by
  obtain ⟨r, hrun, hlen, hval, hreduced⟩ := montMul_computes_any hodd hm0 ha hb
  exact ⟨r, hrun, hlen, hreduced hlt, hval⟩

end CryptoPrimes.Modular
