import Mathlib.Data.List.Induction
import CryptoPrimes.Proofs.Trapping.Agree
import CryptoPrimes.Proofs.Trapping.Limbs

/-!
# Trapping division does not trap

The buffer of a trapping division is the part of the dividend that has not been
reached, the window, and words that are done with: `low ++ (window ++ done)`.  A
step takes the highest word of `low` into the window (`digitAt_run`) and leaves a
window as long as the divisor (`digitAt_eq`), so the steps together are the long
division of `low` from that window (`digitsBelow_eq`).  A destination that the
whole quotient fits may be shorter than what the windows give: a word without a
place in it is zero (`storeDigit_eq`).

The divisor is not zero and its top word is not, so the estimate of a quotient
word can be formed; it fits a word when its product is, and is one at least when
the divisor is added back.
-/

namespace CryptoPrimes.Trapping

open Limbs

variable {w : Width}

/-! ## One quotient word -/

theorem tooLarge_eq {next low q r : Nat} (hnext : next < 2 ^ w.bits) (hlow : low < 2 ^ w.bits)
    (hr : r < 2 ^ w.bits) :
    tooLarge w next low q r = .ok (decide (2 ^ w.bits ≤ q ∨ r * 2 ^ w.bits + low < q * next)) := by
  rw [tooLarge]
  by_cases hq : 2 ^ w.bits ≤ q
  · rw [if_pos hq, decide_eq_true (.inl hq)]
    rfl
  · have hpos : 0 < 2 ^ w.bits := Nat.two_pow_pos _
    have hproduct := product_lt (by omega : q < 2 ^ w.bits) hnext hpos hpos
    rw [if_neg hq, doubleWord_eq (by omega), Checked.ok_bind, doubleWord_eq (double_lt hr hlow),
      Checked.ok_bind]
    simp only [hq, false_or]
    rfl

theorem refineDigit_eq {top next low : Nat} (htop : top < 2 ^ w.bits) (hnext : next < 2 ^ w.bits)
    (hlow : low < 2 ^ w.bits) (q : Nat) {r : Nat} (hr : r < 2 ^ w.bits) :
    refineDigit w top next low q r = .ok (Limbs.refineDigit w top next low q r) := by
  induction q generalizing r with
  | zero => rfl
  | succ q ih =>
      rw [refineDigit, tooLarge_eq hnext hlow hr, Checked.ok_bind, Limbs.refineDigit]
      by_cases hlarge : 2 ^ w.bits ≤ q + 1 ∨ r * 2 ^ w.bits + low < (q + 1) * next
      · have hsum : r + top < 2 ^ w.bits * 2 ^ w.bits := by
          have := double_lt hr htop
          have := Nat.le_mul_of_pos_right r (Nat.two_pow_pos w.bits)
          omega
        rw [if_pos (decide_eq_true hlarge), if_pos hlarge, doubleWord_eq hsum, Checked.ok_bind]
        by_cases hstop : 2 ^ w.bits ≤ r + top
        · rw [if_pos hstop, if_pos hstop]
          rfl
        · rw [if_neg hstop, if_neg hstop, ih (by omega)]
      · rw [if_neg (by simpa using hlarge), if_neg hlarge]
        rfl

theorem estimateDigit_eq (u2 u1 u0 : Word w) {v1 : Word w} (v0 : Word w) (hv1 : 0 < v1.toNat) :
    estimateDigit u2 u1 u0 v1 v0 = .ok (Limbs.estimateDigit u2 u1 u0 v1 v0) := by
  rw [estimateDigit, Checked.require_of (by omega), Checked.ok_bind,
    doubleWord_eq (double_lt u2.toNat_lt u1.toNat_lt), Checked.ok_bind,
    refineDigit_eq v1.toNat_lt v0.toNat_lt u0.toNat_lt _ ((Nat.mod_lt _ hv1).trans v1.toNat_lt)]
  rfl

/-! ## Words of the window -/

/-- The `i`-th word from the top of the window, in the buffer. -/
theorem wordAt_window {low window done : Limbs w} {i j : Nat} (hi : i < window.length)
    (hj : j = low.length + (window.length - 1 - i)) :
    wordAt (low ++ (window ++ done)) j = .ok (fromTop window i) := by
  have hin : window.length - 1 - i < window.length := by omega
  have hget : (low ++ (window ++ done))[j]? = some (fromTop window i) := by
    rw [List.getElem?_append_right (by omega), hj, Nat.add_sub_cancel_left,
      List.getElem?_append_left hin, List.getElem?_eq_getElem hin, fromTop,
      List.getD_eq_getElem _ _ hin]
  rw [wordAt, hget]

theorem wordAt_fromTop {a : Limbs w} {i : Nat} (hi : i < a.length) :
    wordAt a (a.length - (i + 1)) = .ok (fromTop a i) := by
  have h : wordAt ([] ++ (a ++ [])) (0 + (a.length - 1 - i)) = .ok (fromTop a i) :=
    wordAt_window hi rfl
  rwa [List.nil_append, List.append_nil, Nat.zero_add, Nat.sub_sub, Nat.add_comm 1] at h

/-- The words of the window below its top word. -/
theorem exists_body {window : Limbs w} {n : Nat} (hlength : window.length = n + 1) :
    window = window.take n ++ [fromTop window 0] ∧ (window.take n).length = n := by
  obtain ⟨body, htop, hbody⟩ := exists_top (a := window) (List.ne_nil_of_length_pos (by omega))
  have htake : window.take n = body := by
    rw [htop, List.take_left' (by omega)]
  rw [htake]
  exact ⟨htop, by omega⟩

/-- Only a multiple of the divisor that is not zero takes more than the window has. -/
theorem digit_pos_of_borrow {c v : Limbs w} (h : c.length = v.length) {q : Word w}
    (hborrow : 0 < (mulSub c v q 0).2.toNat) : 0 < q.toNat := by
  have hval := val_mulSub h q 0
  rw [Nat.pos_iff_ne_zero]
  intro hzero
  have hdiff := val_lt (mulSub c v q 0).1
  rw [length_mulSub h] at hdiff
  rw [hzero, Word.toNat_zero] at hval
  have := Nat.le_mul_of_pos_right (2 ^ (w.bits * c.length)) hborrow
  omega

/-- The step on a buffer: which of the two ways it takes, and what it leaves of the
window and of its top word. -/
theorem digitAt_run {v window : Limbs w} (hv : 2 ≤ v.length) (htop : 0 < (fromTop v 0).toNat)
    (hlength : window.length = v.length + 1) (low done : Limbs w)
    (hsize : low.length + v.length < sizeLimit) {q : Word w} {row : Limbs w × Word w}
    (hq : Limbs.estimateDigit (fromTop window 0) (fromTop window 1) (fromTop window 2)
      (fromTop v 0) (fromTop v 1) = q)
    (hrow : mulSub (window.take v.length) v q 0 = row) :
    digitAt v low.length (low ++ (window ++ done)) =
      if fromTop window 0 < row.2 then
        .ok (q - 1, low ++ ((addCarry row.1 v false).1 ++
          (fromTop window 0 - row.2 + Word.ofBool (addCarry row.1 v false).2) :: done))
      else .ok (q, low ++ (row.1 ++ (fromTop window 0 - row.2) :: done)) := by
  rw [digitAt, checkedSize_eq hsize, Checked.ok_bind,
    wordAt_window (i := 0) (by omega) (by omega), Checked.ok_bind,
    difference_eq (by omega), Checked.ok_bind,
    wordAt_window (i := 1) (by omega) (by omega), Checked.ok_bind,
    difference_eq (by omega), Checked.ok_bind,
    wordAt_window (i := 2) (by omega) (by omega), Checked.ok_bind,
    difference_eq (by omega), Checked.ok_bind, wordAt_fromTop (i := 0) (by omega), Checked.ok_bind,
    difference_eq (by omega), Checked.ok_bind, wordAt_fromTop (i := 1) (by omega), Checked.ok_bind,
    estimateDigit_eq _ _ _ _ htop, Checked.ok_bind, hq]
  obtain ⟨hwindow, hbody⟩ := exists_body hlength
  have hbuffer : low ++ (window ++ done) =
      low ++ (window.take v.length ++ fromTop window 0 :: done) := by
    conv_lhs => rw [hwindow]
    rw [List.append_assoc]
    rfl
  rw [hbuffer, slice_append rfl (by omega), Checked.ok_bind, subMulWord_eq hbody, Checked.ok_bind,
    hrow]
  have hpos := digit_pos_of_borrow hbody (q := q)
  have hdiff := (length_mulSub hbody q 0).trans hbody
  rw [hrow] at hpos hdiff
  rw [write_append rfl (by omega) (hdiff.trans hbody.symm), Checked.ok_bind, ← List.append_assoc,
    setWord_append (by rw [List.length_append, hdiff]), Checked.ok_bind]
  by_cases hborrow : fromTop window 0 < row.2
  · have hq : (1 : Word w).toNat ≤ q.toNat := by
      rw [Word.toNat_one]
      exact hpos ((Nat.zero_le _).trans_lt (Word.lt_iff_toNat_lt.mp hborrow))
    have hsum := (length_addCarry hdiff false).trans hdiff
    rw [if_pos hborrow, if_pos hborrow, wordDifference_eq hq, Checked.ok_bind, List.append_assoc,
      slice_append rfl (by omega), Checked.ok_bind, add_eq hdiff.symm hdiff, Checked.ok_bind,
      write_append rfl (by omega) (hsum.trans hdiff.symm), Checked.ok_bind, ← List.append_assoc,
      wordAt_append (by rw [List.length_append, hsum]), Checked.ok_bind,
      setWord_append (by rw [List.length_append, hsum]), Checked.ok_bind, List.append_assoc]
    rfl
  · rw [if_neg hborrow, if_neg hborrow, List.append_assoc]
    rfl

theorem digitAt_eq {v window : Limbs w} (hv : 2 ≤ v.length) (htop : 0 < (fromTop v 0).toNat)
    (hlength : window.length = v.length + 1) (low done : Limbs w)
    (hsize : low.length + v.length < sizeLimit) :
    ∃ x, digitAt v low.length (low ++ (window ++ done)) =
      .ok ((digitStep v window).1, low ++ ((digitStep v window).2 ++ x :: done)) ∧
      (digitStep v window).2.length = v.length := by
  have hbody := (exists_body hlength).2
  rw [digitAt_run hv htop hlength low done hsize rfl rfl, digitStep]
  generalize Limbs.estimateDigit _ _ _ _ _ = q
  have hdiff := (length_mulSub hbody q 0).trans hbody
  generalize mulSub (window.take v.length) v q 0 = row at *
  by_cases hborrow : fromTop window 0 < row.2
  · rw [if_pos hborrow, if_pos hborrow]
    exact ⟨_, rfl, (length_addCarry hdiff false).trans hdiff⟩
  · rw [if_neg hborrow, if_neg hborrow]
    exact ⟨_, rfl, hdiff⟩

/-! ## All quotient words -/

/-- The highest word of the low part enters the window first. -/
theorem longDivision_concat (v window low : Limbs w) (x : Word w) :
    longDivision v window (low ++ [x]) =
      ((longDivision v (digitStep v (x :: window)).2 low).1 ++ [(digitStep v (x :: window)).1],
        (longDivision v (digitStep v (x :: window)).2 low).2) := by
  induction low with
  | nil => rfl
  | cons y ys ih =>
      simp only [longDivision, List.cons_append, List.foldr_cons] at ih ⊢
      rw [ih]

/-- Quotient words at the front of their destination, if a quotient is wanted. -/
def placed (room : Option Nat) (digits : Limbs w) : Option (Limbs w) :=
  room.map fun n => extend (digits.take n) n

/-- The words that a destination has no place for are zero. -/
def FitsRoom (room : Option Nat) (digits : Limbs w) : Prop :=
  ∀ n ∈ room, isZero (digits.drop n) = true

/-- Zeros, and the zeros behind them. -/
theorem zeros_append_rest {n m : Nat} (h : n ≤ m) :
    zeros n ++ zeros (m - n) = (zeros m : Limbs w) := by
  rw [zeros, zeros, List.replicate_append_replicate, zeros, Nat.add_sub_cancel' h]

theorem zeros_append_zero (n : Nat) (done : Limbs w) :
    zeros n ++ 0 :: done = zeros (n + 1) ++ done := by
  rw [zeros, zeros, List.replicate_succ', List.append_assoc]
  rfl

theorem placed_zeros (room : Option Nat) (m : Nat) :
    placed room (zeros m : Limbs w) = room.map zeros := by
  cases room with
  | none => rfl
  | some n =>
      have htake : (zeros m : Limbs w).take n = zeros (min n m) := List.take_replicate
      rw [placed, Option.map_some, Option.map_some, htake, extend, length_zeros,
        zeros_append_rest (Nat.min_le_left n m)]

theorem set_zeros_append (j : Nat) (digit : Word w) (digits : Limbs w) :
    (zeros (j + 1) ++ digits).set j digit = zeros j ++ digit :: digits := by
  rw [zeros, List.replicate_succ', List.append_assoc,
    List.set_append_right _ _ (by rw [List.length_replicate]), List.length_replicate, Nat.sub_self]
  rfl

/-- Setting a word commutes with cutting and padding to a length beyond it. -/
theorem set_extend_take {l : Limbs w} {j n : Nat} (hj : j < l.length) (hn : j < n) (x : Word w) :
    (extend (l.take n) n).set j x = extend ((l.set j x).take n) n := by
  have hplace : j < (l.take n).length := by
    rw [List.length_take]
    omega
  rw [extend, extend, List.set_append_left _ _ hplace, List.take_set, List.length_set]

/-- A quotient word comes below those that have been stored; beyond the
destination it is zero, as the whole quotient fits. -/
theorem storeDigit_eq {room : Option Nat} {above : Limbs w} {digit : Word w} {digits : Limbs w}
    (hfits : FitsRoom room (above ++ digit :: digits)) :
    storeDigit (placed room (zeros (above.length + 1) ++ digits)) above.length digit =
      .ok (placed room (zeros above.length ++ digit :: digits)) := by
  cases room with
  | none => rfl
  | some n =>
      have hlength : (extend ((zeros (above.length + 1) ++ digits).take n) n).length = n :=
        length_extend (List.length_take_le _ _)
      rw [placed, Option.map_some, storeDigit, hlength]
      by_cases hin : above.length < n
      · have hplace : above.length < (zeros (above.length + 1) ++ digits : Limbs w).length := by
          rw [List.length_append, length_zeros]
          omega
        rw [if_pos hin, set_extend_take hplace hin, set_zeros_append]
        rfl
      · have hzero : digit = 0 := by
          have hdropped := hfits n rfl
          rw [List.drop_append_of_le_length (by omega), isZero, List.all_append, List.all_cons,
            Bool.and_eq_true, Bool.and_eq_true] at hdropped
          exact eq_of_beq hdropped.2.1
        rw [if_neg hin, Checked.require_of hzero, Checked.ok_bind, hzero, zeros_append_zero]
        rfl

theorem digitsBelow_eq {v : Limbs w} (hv : 2 ≤ v.length) (htop : 0 < (fromTop v 0).toNat)
    {room : Option Nat} (low done digits : Limbs w) {window : Limbs w}
    (hwindow : window.length = v.length) (hsize : low.length + v.length < sizeLimit)
    (hfits : FitsRoom room ((longDivision v window low).1 ++ digits)) :
    ∃ done', digitsBelow v low.length (low ++ (window ++ done))
        (placed room (zeros low.length ++ digits)) =
      .ok ((longDivision v window low).2 ++ done',
        placed room ((longDivision v window low).1 ++ digits)) ∧
      (longDivision v window low).2.length = v.length := by
  -- from the end of `low`, the order in which its words enter
  induction low using List.reverseRecOn generalizing window done digits with
  | nil => exact ⟨done, rfl, hwindow⟩
  | append_singleton low x ih =>
      rw [List.length_append, List.length_singleton] at hsize ⊢
      have hlength : (x :: window).length = v.length + 1 := by rw [List.length_cons, hwindow]
      obtain ⟨word, hdigit, hlength⟩ := digitAt_eq hv htop hlength low done (by omega)
      rw [longDivision_concat, List.append_assoc, List.singleton_append] at hfits ⊢
      obtain ⟨done', hrest, hlength'⟩ := ih (word :: done)
        ((digitStep v (x :: window)).1 :: digits) hlength (by omega) hfits
      rw [← length_longDivision v (digitStep v (x :: window)).2 low] at hrest hdigit ⊢
      refine ⟨done', ?_, hlength'⟩
      rw [digitsBelow, List.append_assoc, List.singleton_append, ← List.cons_append, hdigit,
        Checked.ok_bind]
      dsimp only
      rw [storeDigit_eq hfits, Checked.ok_bind, hrest]

/-! ## Division with remainder -/

variable {a b : Limbs w} {rRoom : Nat}

/-- The steps over the shifted dividend end with its windows. -/
theorem digitsBelow_shifted {room : Option Nat} (hb : 2 ≤ wordLen b) (hle : wordLen b ≤ wordLen a)
    (hsize : wordLen a + 1 < sizeLimit) (hfits : FitsRoom room (windows a b).1) :
    ∃ done, digitsBelow (normalised b) (wordLen a + 1 - wordLen b) (shifted a (normalShift b))
        (room.map zeros) = .ok ((windows a b).2 ++ done, placed room (windows a b).1) ∧
      (windows a b).2.length = wordLen b := by
  have hvlen := length_normalised b
  have hulen := length_shifted a (normalShift b)
  have htop := normalised_top_pos (b := b) (by omega)
  unfold windows at hfits ⊢
  dsimp only at hfits ⊢
  generalize shifted a (normalShift b) = u at *
  have hlow : (u.take (wordLen a + 1 - wordLen b)).length = wordLen a + 1 - wordLen b := by
    rw [List.length_take]
    omega
  have hwindow : (u.drop (wordLen a + 1 - wordLen b)).length = (normalised b).length := by
    rw [List.length_drop]
    omega
  obtain ⟨done, hdigits, hlength⟩ := digitsBelow_eq (by omega) htop
    (u.take (wordLen a + 1 - wordLen b)) [] [] hwindow (by omega) (by rwa [List.append_nil])
  simp only [List.append_nil, List.take_append_drop, hlow, placed_zeros] at hdigits
  exact ⟨done, hdigits, hlength.trans hvlen⟩

/-- The operands are shifted in their buffers, divided window by window, and the
last window is shifted back. -/
theorem divideLong_stores (room : Option Nat) (hb : 2 ≤ wordLen b) (hle : wordLen b ≤ wordLen a)
    (hroom : wordLen b ≤ rRoom) (hsize : wordLen a + 1 < sizeLimit)
    (hfits : FitsRoom room (windows a b).1) :
    Work.Computes (divideLong (room.map zeros) rRoom a b) (wordLen a + 1 + wordLen b)
      (.ok (placed room (windows a b).1,
        extend (shrWithin (windows a b).2 (normalShift b)).1 rRoom)) := by
  have hshift := (normalised_spec (b := b) (by omega)).1
  obtain ⟨done, hdigits, hrem⟩ := digitsBelow_shifted hb hle hsize hfits
  unfold divideLong
  refine .lift_bind (checkedSize_eq hsize) ?_
  refine .withBuffer fun u hu => ⟨(windows a b).2 ++ done, ?_⟩
  refine @Work.Computes.withBuffer w _ _ 0 _ _ fun v hv => ⟨normalised b, ?_⟩
  -- both operands are copied and shifted in place
  obtain ⟨z, hz⟩ : ∃ z, u.drop (wordLen a) = [z] :=
    List.length_eq_one_iff.mp (by rw [List.length_drop, hu]; omega)
  have hcopy : write u 0 (wordLen a) (trim a) = .ok (trim a ++ [z]) := by
    rw [write_front (length_trim a) (by omega), hz]
  have hread : slice (trim a ++ [z]) 0 (wordLen a) = .ok (trim a) := by
    rw [slice_front (by simp [length_trim]), List.take_left' (length_trim a)]
  have hshifted := (length_shlWithin (trim a) (normalShift b)).trans (length_trim a)
  have hwrite : write (trim a ++ [z]) 0 (wordLen a) (shlWithin (trim a) (normalShift b)).1 =
      .ok ((shlWithin (trim a) (normalShift b)).1 ++ [z]) := by
    rw [write_front hshifted (by simp [length_trim]), List.drop_left' (length_trim a)]
  refine .lift_bind (difference_eq (by omega)) (.lift_bind (wordAt_top (by omega)) ?_)
  refine .lift_bind (slice_significant b) (.lift_bind (write_whole hv (length_trim b)) ?_)
  refine .lift_bind (shlCarry_eq _ hshift) ?_
  refine .lift_bind (slice_significant a) (.lift_bind hcopy (.lift_bind hread ?_))
  refine .lift_bind (shlCarry_eq _ hshift) (.lift_bind hwrite ?_)
  refine .lift_bind (setWord_append hshifted _) ?_
  refine .lift_bind (difference_eq hle) ?_
  refine .lift_bind (checkedSize_eq (by omega)) ?_
  have hsteps : wordLen a - wordLen b + 1 = wordLen a + 1 - wordLen b := by omega
  rw [hsteps]
  refine .lift_bind hdigits ?_
  refine .lift_bind (slice_append (a := []) rfl ((Nat.zero_add _).trans hrem)) ?_
  refine .lift_bind (shrCarry_eq _ hshift) ?_
  refine .lift_bind (write_zeros (by rw [length_shrWithin, hrem]) hroom) ?_
  exact Work.computes_pure _

/-- A smaller dividend is its own remainder. -/
theorem divide_less (quotient : Option (Limbs w)) (hb : wordLen b ≠ 0) (h : val a < val b) :
    Work.Computes (divide quotient b.length a b) 0 (.ok (quotient, extend (trim a) b.length)) := by
  have hshort := wordLen_le_of_less h
  refine .lift_bind (Checked.require_of rfl _) (.lift_bind (Checked.require_of hb _) ?_)
  refine .lift_bind (compareAny_eq a b) ?_
  rw [isLT_compare, if_pos ((less_iff a b).mpr h)]
  refine .lift_bind (slice_significant a) ?_
  exact .lift_bind (write_zeros (length_trim a) hshort) (Work.computes_pure _)

theorem divide_word {quotient : Option (Limbs w)} {out : Checked (Option (Limbs w) × Limbs w)}
    (hb : wordLen b = 1) (h : val b ≤ val a)
    (hword : divideWord quotient b.length a (b.headD 0) = out) :
    Work.Computes (divide quotient b.length a b) 0 out := by
  refine .lift_bind (Checked.require_of rfl _) (.lift_bind (Checked.require_of (by omega) _) ?_)
  refine .lift_bind (compareAny_eq a b) ?_
  rw [isLT_compare, if_neg (not_less_of_le h), if_pos hb]
  refine .lift_bind (wordAt_zero (by rintro rfl; cases hb)) ?_
  rw [← hword]
  exact Work.computes_lift _

theorem divide_long {quotient : Option (Limbs w)} {depth : Nat}
    {out : Checked (Option (Limbs w) × Limbs w)} (hb : 2 ≤ wordLen b) (h : val b ≤ val a)
    (hlong : Work.Computes (divideLong quotient b.length a b) depth out) :
    Work.Computes (divide quotient b.length a b) depth out := by
  refine .lift_bind (Checked.require_of rfl _) (.lift_bind (Checked.require_of (by omega) _) ?_)
  refine .lift_bind (compareAny_eq a b) ?_
  rwa [isLT_compare, if_neg (not_less_of_le h), if_neg (by omega)]

theorem divideWord_stores {qRoom : Nat} {x : Word w} (hx : x ≠ 0) (hqroom : wordLen a ≤ qRoom)
    (hroom : rRoom ≠ 0) :
    divideWord (some (zeros qRoom)) rRoom a x =
      .ok (some (extend (divWord (trim a) x).1 qRoom), extend [(divWord (trim a) x).2] rRoom) := by
  have hlen := (length_divWord (trim a) x).trans (length_trim a)
  rw [divideWord, slice_significant, Checked.ok_bind, divWordChecked, Checked.require_of hx,
    Checked.ok_bind]
  dsimp only [pure, Except.pure]
  rw [Checked.ok_bind, write_zeros hlen hqroom, Checked.ok_bind, setWord_zeros hroom]
  rfl

/-- The dividend has no place in a shorter destination. -/
theorem divideWord_short {qRoom : Nat} {x : Word w} (hx : x ≠ 0) (hqroom : qRoom < wordLen a) :
    divideWord (some (zeros qRoom)) rRoom a x = .error .outOfRange := by
  rw [divideWord, slice_significant, Checked.ok_bind, divWordChecked, Checked.require_of hx,
    Checked.ok_bind]
  dsimp only [pure, Except.pure]
  rw [Checked.ok_bind, write, require, if_neg fun hrange => ?_]
  · rfl
  · rw [length_zeros] at hrange
    omega

theorem divideWord_remainder {x : Word w} (hx : x ≠ 0) (hroom : rRoom ≠ 0) :
    divideWord none rRoom a x = .ok (none, extend [remWord (trim a) x] rRoom) := by
  rw [divideWord, slice_significant, Checked.ok_bind, modWord, Checked.require_of hx,
    Checked.ok_bind]
  dsimp only [pure, Except.pure]
  rw [Checked.ok_bind, setWord_zeros hroom]
  rfl

/-- What both forms of a division by two words or more have in common. -/
theorem long_bounds (h : val b ≤ val a) (hsize : a.length + 1 < sizeLimit) :
    wordLen b ≤ wordLen a ∧ wordLen a + 1 < sizeLimit ∧
      wordLen a + 1 + wordLen b ≤ divRemDepth a.length b.length := by
  have hlena := wordLen_le_length a
  have hlenb := wordLen_le_length b
  refine ⟨wordLen_mono h, by omega, ?_⟩
  unfold divRemDepth
  omega

theorem divRem_agree_room {qRoom : Nat} (hb : wordLen b ≠ 0) (hroom : HasRoom a b qRoom)
    (hsize : a.length + 1 < sizeLimit) :
    ∃ q r : Limbs w, Work.Agree (Limbs.divRem qRoom b.length a b) (divRem qRoom b.length a b)
      (divRemDepth a.length b.length) (.ok (q, r)) ∧ q.length = qRoom := by
  have hlenb := wordLen_le_length b
  rcases Nat.lt_or_ge (val a) (val b) with hless | hge
  · have htrap := (divide_less (some (zeros qRoom)) hb hless).then_pure fun d => (d.1.getD [], d.2)
    exact ⟨zeros qRoom, extend (trim a) b.length,
      .mono ⟨divRem_less hb hless, htrap⟩ (Nat.zero_le _), length_zeros _⟩
  by_cases hone : wordLen b = 1
  · have hqroom := hroom.copies hone hge
    have htrap := (divide_word hone hge (divideWord_stores (headD_ne_zero hone) hqroom
      (by omega : b.length ≠ 0))).then_pure fun d => (d.1.getD [], d.2)
    exact ⟨_, _, .mono ⟨divRem_word hone hge hqroom, htrap⟩ (Nat.zero_le _),
      length_extend (by rwa [length_divWord, length_trim])⟩
  · obtain ⟨hle, hwords, hdepth⟩ := long_bounds hge hsize
    have hfit : val (windows a b).1 < 2 ^ (w.bits * qRoom) :=
      (windows_spec (by omega) hge).1 ▸ hroom.holds
    have hfits : FitsRoom (some qRoom) (windows a b).1 := by
      rintro _ ⟨rfl⟩
      exact isZero_drop hfit
    have hplain := divRem_long (by omega) hge (divideLong_windows a b) (fitQuotient_eq hfit)
    have hlong := divideLong_stores (some qRoom) (by omega) hle hlenb hwords hfits
    have htrap := (divide_long (by omega) hge hlong).then_pure fun d => (d.1.getD [], d.2)
    exact ⟨_, _, .mono ⟨hplain, htrap⟩ hdepth, length_extend (List.length_take_le _ _)⟩

theorem divRem_agree {qRoom : Nat} (hb : wordLen b ≠ 0)
    (hroom : val b ≤ val a → wordLen a + 1 ≤ qRoom + wordLen b) (hsize : a.length + 1 < sizeLimit) :
    ∃ q r : Limbs w, Work.Agree (Limbs.divRem qRoom b.length a b) (divRem qRoom b.length a b)
      (divRemDepth a.length b.length) (.ok (q, r)) ∧ q.length = qRoom :=
  divRem_agree_room hb (hasRoom_of_wordLen (mt (wordLen_eq_zero_iff b).mpr hb) hroom) hsize

theorem divRem_agree_short {qRoom : Nat} (hone : wordLen b = 1) (hge : val b ≤ val a)
    (hroom : qRoom < wordLen a) :
    Work.Agree (Limbs.divRem qRoom b.length a b) (divRem qRoom b.length a b) 0
      (.error .outOfRange) :=
  ⟨divRem_short hone hge hroom,
    (divide_word hone hge (divideWord_short (headD_ne_zero hone) hroom)).bind_error⟩

theorem modReduce_agree (hb : wordLen b ≠ 0) (hsize : a.length + 1 < sizeLimit) :
    ∃ r : Limbs w, Work.Agree (Limbs.modReduce b.length a b) (modReduce b.length a b)
      (divRemDepth a.length b.length) (.ok r) := by
  have hlenb := wordLen_le_length b
  rcases Nat.lt_or_ge (val a) (val b) with hless | hge
  · have htrap := (divide_less none hb hless).then_pure (·.2)
    exact ⟨_, .mono ⟨modReduce_less hb hless, htrap⟩ (Nat.zero_le _)⟩
  by_cases hone : wordLen b = 1
  · have htrap := (divide_word hone hge (divideWord_remainder (headD_ne_zero hone)
      (by omega : b.length ≠ 0))).then_pure (·.2)
    exact ⟨_, .mono ⟨modReduce_word hone hge, htrap⟩ (Nat.zero_le _)⟩
  · obtain ⟨hle, hwords, hdepth⟩ := long_bounds hge hsize
    have hplain := modReduce_long (by omega) hge (divideLong_windows a b)
    have hlong := divideLong_stores none (by omega) hle hlenb hwords nofun
    have htrap := (divide_long (by omega) hge hlong).then_pure (·.2)
    exact ⟨_, .mono ⟨hplain, htrap⟩ hdepth⟩

end CryptoPrimes.Trapping
