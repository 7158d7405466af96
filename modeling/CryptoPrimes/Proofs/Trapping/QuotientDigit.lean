import CryptoPrimes.Proofs.Trapping.Division

/-!
# The estimate of a quotient word

Long division estimates a quotient word from the top words of its window and of the
divisor and corrects the estimate in a loop.  The loop ends by one of two tests, and
`Corrects` counts the corrections it makes on its way.  A divisor with its top bit set
allows two: the remainder of the estimate grows by at least half a word each time, and
a remainder beyond a word ends the loop (`exists_corrects`).

The estimate that is left is the true quotient word or one more (`Estimated`).  The
multiple of the divisor borrows beyond the window in the second case alone, and then
the divisor is added back once (`Settled`).  Either way the top word of the window is
zero afterwards and its other words are below the divisor, so the next window is as the
one before, and all windows of a division are alike (`digitsBelow_estimated`).
-/

namespace CryptoPrimes.Trapping

open Limbs

variable {w : Width}

/-! ## The correction loop -/

/-- The loop lowers the estimate `q`, with the remainder `r`, to `q'` in `count`
corrections.  All its products, shifts and sums have room in a double word. -/
inductive Corrects (w : Width) (top next low : Nat) : Nat → Nat → Nat → Nat → Prop
  | fits {q r : Nat} (hfits : tooLarge w next low q r = .ok false) :
      Corrects w top next low q r 0 q
  | stops {q r : Nat} (hlarge : tooLarge w next low (q + 1) r = .ok true)
      (hsum : doubleWord w (r + top) = .ok (r + top)) (hover : 2 ^ w.bits ≤ r + top) :
      Corrects w top next low (q + 1) r 1 q
  | goesOn {q r count q' : Nat} (hlarge : tooLarge w next low (q + 1) r = .ok true)
      (hsum : doubleWord w (r + top) = .ok (r + top)) (hword : r + top < 2 ^ w.bits)
      (hrest : Corrects w top next low q (r + top) count q') :
      Corrects w top next low (q + 1) r (count + 1) q'

theorem Corrects.refineDigit_eq {top next low q r count q' : Nat}
    (h : Corrects w top next low q r count q') : refineDigit w top next low q r = .ok q' := by
  induction h with
  | @fits q r hfits =>
      cases q with
      | zero => rfl
      | succ q =>
          rw [refineDigit, hfits]
          rfl
  | stops hlarge hsum hover =>
      rw [refineDigit, hlarge, Checked.ok_bind, if_pos rfl, hsum, Checked.ok_bind, if_pos hover]
      rfl
  | goesOn hlarge hsum hword _ ih =>
      rw [refineDigit, hlarge, Checked.ok_bind, if_pos rfl, hsum, Checked.ok_bind,
        if_neg (not_le.mpr hword), ih]

/-- The loop makes no more corrections than take the remainder beyond a word. -/
theorem exists_corrects {top next low : Nat} (htop : top < 2 ^ w.bits) (hnext : next < 2 ^ w.bits)
    (hlow : low < 2 ^ w.bits) (q : Nat) {r room : Nat} (hr : r < 2 ^ w.bits)
    (hroom : 2 ^ w.bits ≤ r + room * top) :
    ∃ count ≤ room,
      Corrects w top next low q r count (Limbs.refineDigit w top next low q r) := by
  induction q generalizing r room with
  | zero =>
      refine ⟨0, Nat.zero_le _, .fits ?_⟩
      rw [tooLarge_eq hnext hlow hr, Nat.zero_mul]
      simp
  | succ q ih =>
      have htest := tooLarge_eq (q := q + 1) hnext hlow hr
      rw [Limbs.refineDigit]
      by_cases hlarge : 2 ^ w.bits ≤ q + 1 ∨ r * 2 ^ w.bits + low < (q + 1) * next
      · rw [decide_eq_true hlarge] at htest
        rw [if_pos hlarge]
        obtain ⟨room, rfl⟩ : ∃ k, room = k + 1 := by
          refine Nat.exists_eq_succ_of_ne_zero fun hzero => ?_
          rw [hzero, Nat.zero_mul] at hroom
          omega
        have hsum : doubleWord w (r + top) = .ok (r + top) := by
          have := double_lt hr htop
          have := Nat.le_mul_of_pos_right r (Nat.two_pow_pos w.bits)
          exact doubleWord_eq (by omega)
        by_cases hstop : 2 ^ w.bits ≤ r + top
        · rw [if_pos hstop]
          exact ⟨1, Nat.succ_le_succ (Nat.zero_le room), .stops htest hsum hstop⟩
        · rw [if_neg hstop]
          have hroom : 2 ^ w.bits ≤ r + top + room * top := by
            rw [Nat.succ_mul] at hroom
            omega
          obtain ⟨count, hcount, hrest⟩ := ih (not_le.mp hstop) hroom
          exact ⟨count + 1, Nat.succ_le_succ hcount, .goesOn htest hsum (not_le.mp hstop) hrest⟩
      · rw [decide_eq_false hlarge] at htest
        rw [if_neg hlarge]
        exact ⟨0, Nat.zero_le _, .fits htest⟩

/-! ## One window -/

/-- The two top words of a number, in a double word. -/
def topDouble (a : Limbs w) : Nat := (fromTop a 0).toNat * 2 ^ w.bits + (fromTop a 1).toNat

/-- The estimate for a window and the row it takes from the window: at most two
corrections, the true quotient word or one more, and a borrow beyond the top word in
the second case alone. -/
structure Estimated (v window : Limbs w) (estimate : Word w) (row : Limbs w × Word w) :
    Prop where
  corrected : ∃ count ≤ 2, Corrects w (fromTop v 0).toNat (fromTop v 1).toNat
    (fromTop window 2).toNat (topDouble window / (fromTop v 0).toNat)
    (topDouble window % (fromTop v 0).toNat) count estimate.toNat
  computed : estimateDigit (fromTop window 0) (fromTop window 1) (fromTop window 2)
    (fromTop v 0) (fromTop v 1) = .ok estimate
  quotient_le : val window / val v ≤ estimate.toNat
  le_succ : estimate.toNat ≤ val window / val v + 1
  subtracted : subMulWord (window.take v.length) v estimate = .ok row
  borrows_iff : fromTop window 0 < row.2 ↔ estimate.toNat = val window / val v + 1

/-- The quotient word and the rest of a window, which follow from the estimate and its
row: unless they borrow, they are these, and otherwise the estimate is lowered by one
and the divisor added back, with a carry that the borrow is waiting for. -/
structure Settled (v window : Limbs w) (estimate : Word w) (row : Limbs w × Word w)
    (digit : Word w) (rest : Limbs w) : Prop where
  kept : ¬ fromTop window 0 < row.2 → digit = estimate ∧ rest = row.1
  addedBack : fromTop window 0 < row.2 →
    wordDifference estimate 1 = .ok digit ∧ add v.length row.1 v = .ok (rest, true)
  digit_eq : digit.toNat = val window / val v
  length : rest.length = v.length
  lt : val rest < val v
  rest_eq : val rest = val window % val v

theorem two_mul_half (w : Width) : 2 ^ w.bits = 2 * 2 ^ (w.bits - 1) := by cases w <;> rfl

/-- A word from which one more than itself is taken is made zero by a carry. -/
theorem carry_fills_borrow {x y : Word w} (h : y.toNat = x.toNat + 1) :
    x - y + Word.ofBool true = 0 := by
  have hy := y.toNat_lt
  have hwrap : 2 ^ w.bits - y.toNat + x.toNat = 2 ^ w.bits - 1 := by omega
  have hlast : 2 ^ w.bits - 1 < 2 ^ w.bits := by omega
  apply Word.ext
  rw [Word.toNat_add, Word.toNat_sub, hwrap, Nat.mod_eq_of_lt hlast, Word.toNat_ofBool,
    Bool.toNat_true, Nat.sub_add_cancel Nat.one_le_two_pow, Nat.mod_self, Word.toNat_zero]

section Window

variable {v window : Limbs w} (hv : 2 ≤ v.length) (htop : 2 ^ (w.bits - 1) ≤ (fromTop v 0).toNat)
  (hlength : window.length = v.length + 1) (hwindow : val window < val v * 2 ^ w.bits)

include hv htop hlength hwindow

theorem exists_estimated : ∃ estimate row, Estimated v window estimate row := by
  have hpos : 0 < (fromTop v 0).toNat := (Nat.two_pow_pos _).trans_le htop
  have hbody := (exists_body hlength).2
  obtain ⟨hle, hlt⟩ := estimateDigit_bounds hv hpos hlength hwindow rfl
  have hcomputed := estimateDigit_eq (fromTop window 0) (fromTop window 1) (fromTop window 2)
    (fromTop v 1) hpos
  have hfits : (Limbs.estimateDigit (fromTop window 0) (fromTop window 1) (fromTop window 2)
      (fromTop v 0) (fromTop v 1)).toNat =
      Limbs.refineDigit w (fromTop v 0).toNat (fromTop v 1).toNat (fromTop window 2).toNat
        (topDouble window / (fromTop v 0).toNat) (topDouble window % (fromTop v 0).toNat) :=
    toNat_estimateDigit _ _ (topWords_lt hv hlength hwindow)
  generalize Limbs.estimateDigit (fromTop window 0) (fromTop window 1) (fromTop window 2)
    (fromTop v 0) (fromTop v 1) = estimate at *
  have hrem : topDouble window % (fromTop v 0).toNat < (fromTop v 0).toNat := Nat.mod_lt _ hpos
  -- two divisor words make more than a word, whatever the remainder is
  have hroom : 2 ^ w.bits ≤ topDouble window % (fromTop v 0).toNat + 2 * (fromTop v 0).toNat := by
    have := two_mul_half w
    omega
  have hcorrected := exists_corrects (fromTop v 0).toNat_lt (fromTop v 1).toNat_lt
    (fromTop window 2).toNat_lt (topDouble window / (fromTop v 0).toNat)
    (hrem.trans (fromTop v 0).toNat_lt) hroom
  rw [← hfits] at hcorrected
  refine ⟨estimate, mulSub (window.take v.length) v estimate 0, hcorrected, hcomputed, hle, hlt,
    subMulWord_eq hbody estimate, ?_⟩
  rw [Word.lt_iff_toNat_lt]
  rcases mulSub_window hv hlength (pos_of_window hwindow) hle hlt rfl with
    ⟨hq, hborrow, -⟩ | ⟨hq, hborrow, -⟩
  · rw [hborrow, hq]
    exact iff_of_false (lt_irrefl _) (Nat.lt_succ_self _).ne
  · rw [hborrow, hq]
    exact iff_of_true (Nat.lt_succ_self _) rfl

/-- What the estimate settles is what the step on a buffer leaves there. -/
theorem Estimated.exists_settled {estimate : Word w} {row : Limbs w × Word w}
    (h : Estimated v window estimate row) :
    ∃ digit rest, Settled v window estimate row digit rest ∧
      ∀ low done : Limbs w, low.length + v.length < sizeLimit →
        digitAt v low.length (low ++ (window ++ done)) =
          .ok (digit, low ++ (rest ++ 0 :: done)) := by
  have hpos : 0 < (fromTop v 0).toNat := (Nat.two_pow_pos _).trans_le htop
  have hvpos := pos_of_window hwindow
  have hbody := (exists_body hlength).2
  have hestimate := Except.ok.inj ((estimateDigit_eq _ _ _ _ hpos).symm.trans h.computed)
  have hrow := Except.ok.inj ((subMulWord_eq hbody estimate).symm.trans h.subtracted)
  have hrowlen : row.1.length = v.length := by
    rw [← hrow]
    exact (length_mulSub hbody estimate 0).trans hbody
  have hrun := fun low done hsize => digitAt_run hv hpos hlength low done hsize hestimate hrow
  have hremlt := Nat.mod_lt (val window) hvpos
  rcases mulSub_window hv hlength hvpos h.quotient_le h.le_succ hrow with
    ⟨hq, hborrow, hrem⟩ | ⟨hq, hborrow, hrem, hcarry⟩
  · -- the true quotient word: the borrow takes the top word
    have hno : ¬ fromTop window 0 < row.2 := by
      rw [hborrow, Word.lt_iff_toNat_lt]
      exact lt_irrefl _
    have hzero : fromTop window 0 - row.2 = 0 := by
      rw [hborrow]
      exact Word.ext (by rw [Word.toNat_sub_of_le le_rfl, Nat.sub_self, Word.toNat_zero])
    have hsettled : Settled v window estimate row estimate row.1 :=
      { kept := fun _ => ⟨rfl, rfl⟩
        addedBack := fun hunder => absurd hunder hno
        digit_eq := hq
        length := hrowlen
        lt := hrem ▸ hremlt
        rest_eq := hrem }
    refine ⟨estimate, row.1, hsettled, fun low done hsize => ?_⟩
    rw [hrun low done hsize, if_neg hno, hzero]
  · -- one more: the carry of the divisor makes up for the borrow
    have hunder : fromTop window 0 < row.2 := by
      rw [Word.lt_iff_toNat_lt]
      omega
    have hone : (1 : Word w).toNat ≤ estimate.toNat := by
      rw [Word.toNat_one, hq]
      exact Nat.succ_pos _
    have hzero : fromTop window 0 - row.2 + Word.ofBool (addCarry row.1 v false).2 = 0 := by
      rw [hcarry]
      exact carry_fills_borrow hborrow
    have hsum : add v.length row.1 v = .ok ((addCarry row.1 v false).1, true) := by
      rw [add_eq hrowlen.symm hrowlen, ← hcarry]
    have hsettled : Settled v window estimate row (estimate - 1) (addCarry row.1 v false).1 :=
      { kept := fun hno => absurd hunder hno
        addedBack := fun _ => ⟨wordDifference_eq hone, hsum⟩
        digit_eq := by rw [Word.toNat_sub_of_le hone, Word.toNat_one, hq, Nat.add_sub_cancel]
        length := (length_addCarry hrowlen false).trans hrowlen
        lt := hrem ▸ hremlt
        rest_eq := hrem }
    refine ⟨estimate - 1, (addCarry row.1 v false).1, hsettled, fun low done hsize => ?_⟩
    rw [hrun low done hsize, if_pos hunder, hzero]

end Window

/-- The quotient word of a window, for a divisor of two words or more with its top bit set
and a window that is below the divisor without its lowest word.  The step estimates and
settles it, and leaves the window with zero on top and the rest below the divisor. -/
theorem quotientDigit_estimated {v u : Limbs w} {j : Nat} (hv : 2 ≤ v.length)
    (htop : 2 ^ (w.bits - 1) ≤ (fromTop v 0).toNat) (hj : j + v.length < u.length)
    (hsize : u.length < sizeLimit) (hbelow : val ((u.drop (j + 1)).take v.length) < val v) :
    ∃ estimate row digit rest,
      Estimated v ((u.drop j).take (v.length + 1)) estimate row ∧
      Settled v ((u.drop j).take (v.length + 1)) estimate row digit rest ∧
      digitAt v j u = .ok (digit, u.take j ++ (rest ++ 0 :: u.drop (j + v.length + 1))) := by
  have hlow : (u.take j).length = j := by
    rw [List.length_take]
    omega
  have hlength : ((u.drop j).take (v.length + 1)).length = v.length + 1 := by
    rw [List.length_take, List.length_drop]
    omega
  have hwindow : val ((u.drop j).take (v.length + 1)) < val v * 2 ^ w.bits := by
    rw [List.drop_eq_getElem_cons (by omega), List.take_succ_cons]
    exact val_cons_lt _ hbelow
  have hparts : u.take j ++ ((u.drop j).take (v.length + 1) ++ u.drop (j + v.length + 1)) = u := by
    rw [Nat.add_assoc, ← List.drop_drop, List.take_append_drop, List.take_append_drop]
  obtain ⟨estimate, row, hestimated⟩ := exists_estimated hv htop hlength hwindow
  obtain ⟨digit, rest, hsettled, hrun⟩ := hestimated.exists_settled hv htop hlength hwindow
  have hstep := hrun (u.take j) (u.drop (j + v.length + 1)) (by omega)
  rw [hlow, hparts] at hstep
  exact ⟨estimate, row, digit, rest, hestimated, hsettled, hstep⟩

/-- The top words of this window suggest four, which the divisor's lowest word makes one
too many: the row borrows beyond the top word and the divisor is added back. -/
theorem quotientDigit_estimated_addedBack :
    let v : Limbs .w32 := [4, 0, 0x80000000]
    let u : Limbs .w32 := [12, 0, 0, 2]
    2 ^ (Width.w32.bits - 1) ≤ (fromTop v 0).toNat ∧ val ((u.drop 1).take v.length) < val v ∧
      estimateDigit 2 0 0 0x80000000 0 = (.ok 4 : Checked (Word .w32)) ∧
      (∃ row, subMulWord [12, 0, 0] v 4 = .ok row ∧ 2 < row.2) ∧
      digitAt v 0 u = .ok (3, [0, 0, 0x80000000, 0]) := by
  intro v u
  have htop : 2 ^ (Width.w32.bits - 1) ≤ (fromTop v 0).toNat := by decide
  have hbelow : val ((u.drop (0 + 1)).take v.length) < val v := by decide
  have hfour : estimateDigit 2 0 0 0x80000000 0 = (.ok 4 : Checked (Word .w32)) := by
    decide +kernel
  obtain ⟨estimate, row, digit, rest, hestimated, hsettled, hrun⟩ :=
    quotientDigit_estimated (j := 0) (by decide) htop (by decide) (by decide) hbelow
  obtain rfl : 4 = estimate := Except.ok.inj (hfour.symm.trans hestimated.computed)
  have hdigit : digit = 3 := Word.ext (hsettled.digit_eq.trans (by decide))
  have hrest : rest = [0, 0, 0x80000000] :=
    val_inj hsettled.length (hsettled.rest_eq.trans (by decide))
  refine ⟨htop, hbelow, hfour, ⟨row, hestimated.subtracted, ?_⟩, ?_⟩
  · exact hestimated.borrows_iff.mpr (by decide)
  · rw [hrun, hdigit, hrest]
    rfl

/-! ## All windows -/

/-- All windows on the way down `low`, from the one that stands above it, are estimated
and settled; they yield `digits` and leave `last`. -/
inductive EstimatedAll (v : Limbs w) : Limbs w → Limbs w → Limbs w → Limbs w → Prop
  | done (last : Limbs w) : EstimatedAll v [] last [] last
  | next {low window digits rest last : Limbs w} {x estimate digit : Word w}
      {row : Limbs w × Word w} (hestimated : Estimated v (x :: window) estimate row)
      (hsettled : Settled v (x :: window) estimate row digit rest)
      (hlower : EstimatedAll v low rest digits last) :
      EstimatedAll v (low ++ [x]) window (digits ++ [digit]) last

/-- A quotient with a place for a word takes it there. -/
theorem storeDigit_place {quotient : Option (Limbs w)} {j : Nat}
    (h : ∀ q ∈ quotient, j < q.length) (digit : Word w) :
    storeDigit quotient j digit = .ok (quotient.map (·.set j digit)) := by
  cases quotient with
  | none => rfl
  | some q =>
      rw [storeDigit, if_pos (h q rfl)]
      rfl

/-- A word put in its place heads what lies from there on. -/
theorem drop_set_self {q : Limbs w} {j : Nat} (h : j < q.length) (digit : Word w) :
    (q.set j digit).drop j = digit :: q.drop (j + 1) := by
  rw [List.drop_eq_getElem_cons (by rwa [List.length_set]), List.getElem_set_self,
    List.drop_set_of_lt (Nat.lt_succ_self j)]

/-- A window that is left below the divisor makes the next one, so all of them are
estimated.  The words that the windows leave behind are zero. -/
theorem digitsBelow_estimated {v : Limbs w} (hv : 2 ≤ v.length)
    (htop : 2 ^ (w.bits - 1) ≤ (fromTop v 0).toNat) (low : Limbs w) {window : Limbs w}
    (hlength : window.length = v.length) (hbelow : val window < val v)
    (hsize : low.length + v.length < sizeLimit) :
    ∃ digits last, EstimatedAll v low window digits last ∧
      ∀ (done : Limbs w) (quotient : Option (Limbs w)), (∀ q ∈ quotient, low.length ≤ q.length) →
        digitsBelow v low.length (low ++ (window ++ done)) quotient =
          .ok (last ++ (zeros low.length ++ done),
            quotient.map fun q => digits ++ q.drop low.length) := by
  induction low using List.reverseRecOn generalizing window with
  | nil =>
      refine ⟨[], window, .done window, fun done quotient _ => ?_⟩
      cases quotient <;> rfl
  | append_singleton low x ih =>
      rw [List.length_append, List.length_singleton] at hsize ⊢
      have hwindow := val_cons_lt x hbelow
      have hlength' : (x :: window).length = v.length + 1 := by rw [List.length_cons, hlength]
      obtain ⟨estimate, row, hestimated⟩ := exists_estimated hv htop hlength' hwindow
      obtain ⟨digit, rest, hsettled, hrun⟩ := hestimated.exists_settled hv htop hlength' hwindow
      obtain ⟨digits, last, hlower, hrest⟩ := ih hsettled.length hsettled.lt (by omega)
      refine ⟨digits ++ [digit], last, .next hestimated hsettled hlower,
        fun done quotient hroom => ?_⟩
      have hstored : ∀ q ∈ quotient.map (·.set low.length digit), low.length ≤ q.length := by
        rintro _ hmem
        obtain ⟨q, hq, rfl⟩ := Option.mem_map.mp hmem
        rw [List.length_set]
        exact (Nat.lt_of_succ_le (hroom q hq)).le
      rw [digitsBelow, List.append_assoc, List.singleton_append, ← List.cons_append,
        hrun low done (by omega), Checked.ok_bind]
      dsimp only
      rw [storeDigit_place hroom, Checked.ok_bind, hrest (0 :: done) _ hstored, zeros_append_zero]
      cases quotient with
      | none => rfl
      | some q =>
          simp only [Option.map_some, drop_set_self (hroom q rfl), List.append_assoc,
            List.singleton_append]

/-- The divisor of a division has its top bit set by the shift, and the first window is
below it, so all quotient words of the division are estimated and settled. -/
theorem division_estimated {a b : Limbs w} (hb : 2 ≤ wordLen b) (hab : val b ≤ val a)
    (hsize : wordLen a + 1 < sizeLimit) :
    ∃ digits last, EstimatedAll (normalised b)
        ((shifted a (normalShift b)).take (wordLen a + 1 - wordLen b))
        ((shifted a (normalShift b)).drop (wordLen a + 1 - wordLen b)) digits last ∧
      ∀ quotient : Option (Limbs w),
        (∀ q ∈ quotient, wordLen a + 1 - wordLen b ≤ q.length) →
        digitsBelow (normalised b) (wordLen a + 1 - wordLen b) (shifted a (normalShift b)) quotient =
          .ok (last ++ zeros (wordLen a + 1 - wordLen b),
            quotient.map fun q => digits ++ q.drop (wordLen a + 1 - wordLen b)) := by
  have hle := wordLen_mono hab
  have hvlen := length_normalised b
  have hulen := length_shifted a (normalShift b)
  have htop := (normalised_spec (b := b) (by omega)).2.2
  have hfirst := firstWindow_lt (a := a) (b := b) (by omega) hle
  generalize hk : wordLen a + 1 - wordLen b = k at *
  generalize shifted a (normalShift b) = u at *
  have hlow : (u.take k).length = k := by
    rw [List.length_take]
    omega
  obtain ⟨digits, last, hall, hrun⟩ := digitsBelow_estimated (by omega) htop (u.take k)
    (by rw [List.length_drop]; omega) hfirst (by omega)
  refine ⟨digits, last, hall, fun quotient hroom => ?_⟩
  have hdigits := hrun [] quotient (by rwa [hlow])
  rwa [hlow, List.append_nil, List.append_nil, List.take_append_drop] at hdigits

end CryptoPrimes.Trapping
