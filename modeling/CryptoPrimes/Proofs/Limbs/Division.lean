import CryptoPrimes.Proofs.Limbs.Product
import CryptoPrimes.Proofs.Limbs.Remainder
import CryptoPrimes.Proofs.Limbs.Shift
import CryptoPrimes.Proofs.Scratch

/-!
# Long division is division

The estimate of a quotient word is never below the true word and at most one
above it:

* `refineDigit_spec` — the correction loop ends with an estimate that fits a
  word, whose product with the two top divisor words does not exceed the three
  top window words, and below which no candidate for the true word was lost;
* `quotient_le_estimate`, `estimate_le_succ` — hence the bounds on the estimate.

One window then yields quotient word and remainder (`digitStep_spec`): the
subtraction borrows past the window exactly if the estimate was one too large,
and adding the divisor back restores the remainder (`mulSub_window`).  A window below the divisor
is the invariant that carries `longDivision_spec` down the words, and
`divRem_fits` adds the normalising shift.
-/

namespace CryptoPrimes.Limbs

variable {w : Width}

/-! ## The estimate -/

/-- Where the correction loop stops. -/
theorem refineDigit_spec {top next N : Nat} (hnext : next < 2 ^ w.bits)
    (hN : N < top * 2 ^ w.bits + 2 ^ w.bits) (low q r : Nat) (hq : q * top + r = N) :
    refineDigit w top next low q r < 2 ^ w.bits ∧
      (∃ r', refineDigit w top next low q r * top + r' = N ∧
        refineDigit w top next low q r * next ≤ r' * 2 ^ w.bits + low) ∧
      ∀ t, t < 2 ^ w.bits → t * (top * 2 ^ w.bits + next) ≤ N * 2 ^ w.bits + low → t ≤ q →
        t ≤ refineDigit w top next low q r := by
  induction q generalizing r with
  | zero =>
      unfold refineDigit
      refine ⟨Nat.two_pow_pos _, ⟨N, by simp, by simp⟩, fun t _ _ ht => ht⟩
  | succ q ih =>
      unfold refineDigit
      split
      · next hover =>
          -- the estimate is too large, so nothing is lost by lowering it
          have hlower : ∀ t, t < 2 ^ w.bits →
              t * (top * 2 ^ w.bits + next) ≤ N * 2 ^ w.bits + low → t ≤ q + 1 → t ≤ q := by
            intro t hlt hfit hle
            by_contra hcontra
            have heq : t = q + 1 := by omega
            rcases hover with hover | hover
            · omega
            · rw [heq, ← hq] at hfit
              nlinarith
          split
          · next hbreak =>
              have hpass : q * top + (r + top) = N := by rw [← hq]; ring
              have hsmall : q < 2 ^ w.bits := by
                by_contra hcontra
                have := Nat.mul_le_mul_right top (not_lt.mp hcontra)
                nlinarith
              refine ⟨hsmall, ⟨r + top, hpass, ?_⟩, fun t hlt hfit hle => hlower t hlt hfit hle⟩
              calc q * next ≤ 2 ^ w.bits * 2 ^ w.bits := Nat.mul_le_mul hsmall.le hnext.le
                _ ≤ (r + top) * 2 ^ w.bits := Nat.mul_le_mul_right _ hbreak
                _ ≤ (r + top) * 2 ^ w.bits + low := Nat.le_add_right _ _
          · obtain ⟨hlt, hrest, hkeep⟩ := ih (r + top) (by rw [← hq]; ring)
            exact ⟨hlt, hrest, fun t ht hfit hle => hkeep t ht hfit (hlower t ht hfit hle)⟩
      · next hgood =>
          rw [not_or, not_le, not_lt] at hgood
          exact ⟨hgood.1, ⟨r, hq, hgood.2⟩, fun t _ _ ht => ht⟩

/-- The top words of a window bound the true quotient word from above, those of
the divisor from below. -/
theorem quotient_le_estimate {B P N low rest v1 v0 tail U V d : Nat} (hlow : low < B)
    (hrest : rest < P) (hU : U = (N * B + low) * P + rest)
    (hV : V = (v1 * B + v0) * P + tail) (hv1 : 0 < v1) (hUV : U < V * B)
    (hd : ∀ t, t < B → t * (v1 * B + v0) ≤ N * B + low → t ≤ N / v1 → t ≤ d) : U / V ≤ d := by
  have hle := Nat.div_mul_le_self U V
  have hfit : U / V * (v1 * B + v0) ≤ N * B + low := by
    have hscaled : U / V * (v1 * B + v0) * P < (N * B + low + 1) * P := by
      calc U / V * (v1 * B + v0) * P ≤ U / V * V := by
            rw [hV, Nat.mul_assoc]
            exact Nat.mul_le_mul_left _ (Nat.le_add_right _ _)
        _ ≤ U := hle
        _ < (N * B + low + 1) * P := by rw [hU, Nat.succ_mul]; omega
    exact Nat.lt_succ_iff.mp (Nat.lt_of_mul_lt_mul_right hscaled)
  apply hd _ (Nat.div_lt_of_lt_mul hUV) hfit
  rw [Nat.le_div_iff_mul_le hv1]
  have hword : U / V * v1 * B < (N + 1) * B := by
    calc U / V * v1 * B = U / V * (v1 * B) := Nat.mul_assoc _ _ _
      _ ≤ U / V * (v1 * B + v0) := Nat.mul_le_mul_left _ (Nat.le_add_right _ _)
      _ ≤ N * B + low := hfit
      _ < (N + 1) * B := by rw [Nat.succ_mul]; omega
  exact Nat.lt_succ_iff.mp (Nat.lt_of_mul_lt_mul_right hword)

theorem estimate_le_succ {B P N low rest v1 v0 tail U V d r : Nat} (htail : tail < P)
    (hU : U = (N * B + low) * P + rest) (hV : V = (v1 * B + v0) * P + tail) (hv1 : 0 < v1)
    (hdlt : d < B) (hN : d * v1 + r = N) (hfit : d * v0 ≤ r * B + low) : d ≤ U / V + 1 := by
  have htop : d * (v1 * B + v0) ≤ N * B + low := by
    rw [← hN]
    nlinarith
  have hVpos : B * P ≤ V := by
    calc B * P ≤ v1 * (B * P) := Nat.le_mul_of_pos_left _ hv1
      _ ≤ V := by rw [hV]; nlinarith [Nat.zero_le (v0 * P)]
  have hspill : d * tail < V := by
    rcases Nat.eq_zero_or_pos d with h | h
    · have hBpos : 0 < B * P := Nat.mul_pos (by omega) (by omega)
      rw [h, Nat.zero_mul]
      omega
    · calc d * tail < d * P := Nat.mul_lt_mul_of_pos_left htail h
        _ ≤ B * P := Nat.mul_le_mul_right _ hdlt.le
        _ ≤ V := hVpos
  have hbelow : d * V < U + V := by
    have hscaled := Nat.mul_le_mul_right P htop
    rw [hV] at hspill ⊢
    rw [hU]
    nlinarith
  have hVpos' : 0 < V := by omega
  have hdiv : d < (U + V) / V + 1 := by
    rw [Nat.lt_succ_iff, Nat.le_div_iff_mul_le hVpos']
    exact hbelow.le
  rw [Nat.add_div_right _ hVpos'] at hdiv
  omega

/-! ## One window -/

theorem fromTop_append (a : Limbs w) (x : Word w) : fromTop (a ++ [x]) 0 = x := by
  simp [fromTop]

theorem fromTop_append_succ (a : Limbs w) (x : Word w) {i : Nat} (hi : i < a.length) :
    fromTop (a ++ [x]) (i + 1) = fromTop a i := by
  have hindex : a.length + 1 - 1 - (i + 1) = a.length - 1 - i := by omega
  rw [fromTop, fromTop, List.length_append, List.length_singleton, hindex,
    List.getD_append _ _ _ _ (by omega)]

/-- A nonempty number ends in its top word. -/
theorem exists_top {a : Limbs w} (h : a ≠ []) :
    ∃ rest, a = rest ++ [fromTop a 0] ∧ rest.length + 1 = a.length := by
  obtain ⟨rest, x, rfl⟩ := (List.eq_nil_or_concat a).resolve_left h
  exact ⟨rest, by rw [List.concat_eq_append, fromTop_append], by simp⟩

theorem val_top {a rest : Limbs w} {x : Word w} (h : a = rest ++ [x]) :
    val a = val rest + 2 ^ (w.bits * rest.length) * x.toNat := by
  rw [h, val_append, val_cons, val_nil, Nat.mul_zero, Nat.add_zero]

/-- The two top words of a number and their weights. -/
theorem val_top_two {a : Limbs w} (h : 2 ≤ a.length) :
    ∃ rest : Limbs w, rest.length + 2 = a.length ∧
      val a = ((fromTop a 0).toNat * 2 ^ w.bits + (fromTop a 1).toNat) *
        2 ^ (w.bits * rest.length) + val rest := by
  obtain ⟨front, htop, hlen⟩ := exists_top (List.ne_nil_of_length_pos (by omega : 0 < a.length))
  obtain ⟨rest, hnext, hlen'⟩ :=
    exists_top (List.ne_nil_of_length_pos (by omega : 0 < front.length))
  have hsecond : fromTop a 1 = fromTop front 0 := by
    rw [htop]
    exact fromTop_append_succ _ _ (by omega)
  refine ⟨rest, by omega, ?_⟩
  rw [val_top htop, val_top hnext, hsecond, ← hlen', radix_succ]
  ring

/-- The three top words of a window, one word longer than the divisor. -/
theorem val_window {window : Limbs w} {n : Nat} (hlength : window.length = n + 1) (hn : 2 ≤ n) :
    ∃ rest : Limbs w, rest.length + 2 = n ∧
      val window = (((fromTop window 0).toNat * 2 ^ w.bits + (fromTop window 1).toNat) * 2 ^ w.bits +
        (fromTop window 2).toNat) * 2 ^ (w.bits * rest.length) + val rest ∧
      val window = val (window.take n) + 2 ^ (w.bits * n) * (fromTop window 0).toNat := by
  obtain ⟨front, htop, hlen⟩ := exists_top (List.ne_nil_of_length_pos (by omega : 0 < window.length))
  have hfront : front.length = n := by omega
  obtain ⟨rest, hrest, hval⟩ := val_top_two (by omega : 2 ≤ front.length)
  have htake : window.take n = front := by
    rw [htop, List.take_left' hfront]
  have hwindow := val_top htop
  have hfirst : fromTop window 1 = fromTop front 0 := by
    rw [htop]
    exact fromTop_append_succ _ _ (by omega)
  have hsecond : fromTop window 2 = fromTop front 1 := by
    rw [htop]
    exact fromTop_append_succ _ _ (by omega)
  refine ⟨rest, by omega, ?_, by rw [htake, ← hfront]; exact hwindow⟩
  rw [hwindow, hval, hfirst, hsecond, ← hrest, radix_succ, radix_succ]
  ring

/-- The two top words of a window that yields one quotient word. -/
theorem topWords_lt {v window : Limbs w} (hv : 2 ≤ v.length) (hlength : window.length = v.length + 1)
    (hwindow : val window < val v * 2 ^ w.bits) :
    (fromTop window 0).toNat * 2 ^ w.bits + (fromTop window 1).toNat <
      (fromTop v 0).toNat * 2 ^ w.bits + 2 ^ w.bits := by
  obtain ⟨restv, hrestv, hvalv⟩ := val_top_two hv
  obtain ⟨restu, hrestu, hvalu, -⟩ := val_window hlength hv
  have hsame : restu.length = restv.length := by omega
  rw [hsame] at hvalu
  have htail := val_lt restv
  have hv0 := (fromTop v 1).toNat_lt
  generalize (fromTop window 0).toNat * 2 ^ w.bits + (fromTop window 1).toNat = N at hvalu ⊢
  generalize 2 ^ (w.bits * restv.length) = P at *
  have hscaled : N * (2 ^ w.bits * P) <
      ((fromTop v 0).toNat * 2 ^ w.bits + 2 ^ w.bits) * (2 ^ w.bits * P) := by
    calc N * (2 ^ w.bits * P) ≤ val window := by
          rw [hvalu]
          nlinarith [Nat.zero_le ((fromTop window 2).toNat * P)]
      _ < val v * 2 ^ w.bits := hwindow
      _ ≤ ((fromTop v 0).toNat * 2 ^ w.bits + 2 ^ w.bits) * P * 2 ^ w.bits := by
          apply Nat.mul_le_mul_right _
          rw [hvalv]
          nlinarith
      _ = _ := by ring
  exact Nat.lt_of_mul_lt_mul_right hscaled

/-- The estimate where the loop leaves it fits the word it is put into. -/
theorem toNat_estimateDigit {u2 u1 v1 : Word w} (u0 v0 : Word w)
    (h : u2.toNat * 2 ^ w.bits + u1.toNat < v1.toNat * 2 ^ w.bits + 2 ^ w.bits) :
    (estimateDigit u2 u1 u0 v1 v0).toNat =
      refineDigit w v1.toNat v0.toNat u0.toNat ((u2.toNat * 2 ^ w.bits + u1.toNat) / v1.toNat)
        ((u2.toNat * 2 ^ w.bits + u1.toNat) % v1.toNat) :=
  Word.toNat_ofNat_of_lt (refineDigit_spec v0.toNat_lt h u0.toNat _ _ (Nat.div_add_mod' _ _)).1

/-- The estimated word is the true quotient word or one more. -/
theorem estimateDigit_bounds {v window : Limbs w} (hv : 2 ≤ v.length)
    (htop : 0 < (fromTop v 0).toNat) (hlength : window.length = v.length + 1)
    (hwindow : val window < val v * 2 ^ w.bits) {d : Nat}
    (hd : d = (estimateDigit (fromTop window 0) (fromTop window 1) (fromTop window 2)
      (fromTop v 0) (fromTop v 1)).toNat) :
    val window / val v ≤ d ∧ d ≤ val window / val v + 1 := by
  obtain ⟨restv, hrestv, hvalv⟩ := val_top_two hv
  obtain ⟨restu, hrestu, hvalu, -⟩ := val_window hlength hv
  have hsame : restu.length = restv.length := by omega
  rw [hsame] at hvalu
  have htail := val_lt restv
  have hrest := val_lt restu
  rw [hsame] at hrest
  have hN := topWords_lt hv hlength hwindow
  rw [toNat_estimateDigit _ _ hN] at hd
  generalize (fromTop window 0).toNat * 2 ^ w.bits + (fromTop window 1).toNat = N at hd hvalu hN
  obtain ⟨hlt, ⟨r, hrow, hfit⟩, hkeep⟩ := refineDigit_spec (fromTop v 1).toNat_lt hN
    (fromTop window 2).toNat (N / (fromTop v 0).toNat) (N % (fromTop v 0).toNat) (Nat.div_add_mod' _ _)
  rw [← hd] at hlt hrow hfit hkeep
  exact ⟨quotient_le_estimate (fromTop window 2).toNat_lt hrest hvalu hvalv htop hwindow hkeep,
    estimate_le_succ htail hvalu hvalv htop hlt hrow hfit⟩

/-- The two digits of a number are its own. -/
theorem digits_unique {M x y a b : Nat} (hx : x < M) (hy : y < M)
    (h : x + M * a = y + M * b) : a = b ∧ x = y := by
  have hdiv := congrArg (· / M) h
  have hmod := congrArg (· % M) h
  have hM : 0 < M := by omega
  simp only [Nat.add_mul_div_left _ _ hM, Nat.div_eq_of_lt hx, Nat.div_eq_of_lt hy,
    Nat.zero_add] at hdiv
  simp only [Nat.add_mul_mod_self_left, Nat.mod_eq_of_lt hx, Nat.mod_eq_of_lt hy] at hmod
  exact ⟨hdiv, hmod⟩

/-- A window that went below zero has borrowed one more than its top word. -/
theorem borrow_eq_succ {M D V R top borrow : Nat} (hsum : D + V + M * top = R + M * borrow)
    (hD : D < M) (hV : V < M) (hR : R < V) : borrow = top + 1 := by
  have hlow : M * top < M * borrow := by omega
  have hhigh : M * borrow < M * (top + 2) := by
    rw [Nat.mul_add]
    omega
  have := Nat.lt_of_mul_lt_mul_left hlow
  have := Nat.lt_of_mul_lt_mul_left hhigh
  omega

/-- A window without the multiple of the divisor by the true quotient word, or by one
more.  The true word leaves the remainder and borrows the top word; one more borrows
beyond it, and adding the divisor back restores the remainder with a carry. -/
theorem mulSub_window {v window : Limbs w} {q : Word w} (hv : 2 ≤ v.length)
    (hlength : window.length = v.length + 1) (hvpos : 0 < val v)
    (hle : val window / val v ≤ q.toNat) (hlt : q.toNat ≤ val window / val v + 1)
    {row : Limbs w × Word w} (hrow : mulSub (window.take v.length) v q 0 = row) :
    q.toNat = val window / val v ∧ row.2 = fromTop window 0 ∧ val row.1 = val window % val v ∨
      q.toNat = val window / val v + 1 ∧ row.2.toNat = (fromTop window 0).toNat + 1 ∧
        val (addCarry row.1 v false).1 = val window % val v ∧
        (addCarry row.1 v false).2 = true := by
  obtain ⟨-, -, -, hsplit⟩ := val_window hlength hv
  have htake : (window.take v.length).length = v.length := by
    rw [List.length_take]
    omega
  have hval := val_mulSub htake q 0
  have hrowlen := length_mulSub htake q 0
  rw [hrow, htake, Word.toNat_zero, Nat.add_zero] at hval
  rw [hrow, htake] at hrowlen
  have hrowlt := val_lt row.1
  rw [hrowlen] at hrowlt
  have hvlt := val_lt v
  have hdivmod := Nat.div_add_mod (val window) (val v)
  have hremlt := Nat.mod_lt (val window) hvpos
  generalize hM : 2 ^ (w.bits * v.length) = M at *
  generalize val window / val v = Q at *
  generalize val window % val v = R at *
  rcases Nat.lt_or_ge Q q.toNat with hover | hexact
  · -- the window goes negative, as the divisor is larger than the remainder
    right
    have hq : q.toNat = Q + 1 := by omega
    rw [hq, Nat.mul_succ] at hval
    have hsum : val row.1 + val v + M * (fromTop window 0).toNat = R + M * row.2.toNat := by
      omega
    have hborrow := borrow_eq_succ hsum hrowlt hvlt hremlt
    have hback := val_addCarry hrowlen false
    have hbacklt := val_lt (addCarry row.1 v false).1
    rw [length_addCarry hrowlen false, hrowlen, hM] at hbacklt
    rw [hrowlen, hM, Bool.toNat_false, Nat.add_zero] at hback
    rw [hborrow, Nat.mul_succ] at hsum
    obtain ⟨hcarry, hrem⟩ := digits_unique (M := M) (a := (addCarry row.1 v false).2.toNat) (b := 1)
      hbacklt (hremlt.trans hvlt) (by omega)
    exact ⟨hq, hborrow, hrem, Bool.toNat_eq_one.mp hcarry⟩
  · -- what is left of the window fits the divisor's words
    left
    have hq : q.toNat = Q := by omega
    rw [hq] at hval
    obtain ⟨hborrow, hrem⟩ := digits_unique (M := M) (a := (fromTop window 0).toNat)
      (b := row.2.toNat) hrowlt (hremlt.trans hvlt) (by omega)
    exact ⟨hq, Word.ext hborrow.symm, hrem⟩

theorem pos_of_window {v window : Limbs w} (hwindow : val window < val v * 2 ^ w.bits) :
    0 < val v :=
  Nat.pos_of_mul_pos_right ((Nat.zero_le _).trans_lt hwindow)

/-- A word below a number that is less than the divisor makes a window. -/
theorem val_cons_lt {v body : Limbs w} (x : Word w) (h : val body < val v) :
    val (x :: body) < val v * 2 ^ w.bits := by
  have hx := x.toNat_lt
  have hscaled := Nat.mul_le_mul_left (2 ^ w.bits) (Nat.succ_le_of_lt h)
  rw [Nat.mul_succ] at hscaled
  rw [val_cons, Nat.mul_comm (val v)]
  omega

/-- One window: the quotient word, and the remainder in its place. -/
theorem digitStep_spec {v window : Limbs w} (hv : 2 ≤ v.length)
    (htop : 0 < (fromTop v 0).toNat) (hlength : window.length = v.length + 1)
    (hwindow : val window < val v * 2 ^ w.bits) :
    (digitStep v window).1.toNat = val window / val v ∧
      (digitStep v window).2.length = v.length ∧
      val (digitStep v window).2 = val window % val v := by
  obtain ⟨hle, hlt⟩ := estimateDigit_bounds hv htop hlength hwindow rfl
  rw [digitStep]
  generalize estimateDigit (fromTop window 0) (fromTop window 1) (fromTop window 2)
    (fromTop v 0) (fromTop v 1) = q at *
  have htake : (window.take v.length).length = v.length := by
    rw [List.length_take]
    omega
  have hrowlen := (length_mulSub htake q 0).trans htake
  generalize hrow : mulSub (window.take v.length) v q 0 = row at *
  have hqword := q.toNat_lt
  rcases mulSub_window hv hlength (pos_of_window hwindow) hle hlt hrow with
    ⟨hq, hborrow, hrem⟩ | ⟨hq, hborrow, hrem, -⟩
  · have hno : ¬ fromTop window 0 < row.2 := by
      rw [Word.lt_iff_toNat_lt, hborrow]
      exact lt_irrefl _
    rw [if_neg hno]
    exact ⟨hq, hrowlen, hrem⟩
  · have hunder : fromTop window 0 < row.2 := by
      rw [Word.lt_iff_toNat_lt]
      omega
    rw [if_pos hunder]
    refine ⟨?_, (length_addCarry hrowlen false).trans hrowlen, hrem⟩
    rw [Word.toNat_sub_of_le (by rw [Word.toNat_one, hq]; exact Nat.succ_pos _), Word.toNat_one, hq,
      Nat.add_sub_cancel]

/-! ## All windows -/

theorem longDivision_spec {v window : Limbs w} (hv : 2 ≤ v.length)
    (htop : 0 < (fromTop v 0).toNat) (hlength : window.length = v.length)
    (hwindow : val window < val v) (low : Limbs w) :
    (longDivision v window low).1.length = low.length ∧
      (longDivision v window low).2.length = v.length ∧
      val (longDivision v window low).1 * val v + val (longDivision v window low).2 =
        val (low ++ window) ∧
      val (longDivision v window low).2 < val v := by
  induction low with
  | nil => simp [longDivision, hlength, hwindow]
  | cons x xs ih =>
      obtain ⟨hqlen, hrlen, hval, hlt⟩ := ih
      -- the remainder so far and the next word make a window one digit wide
      obtain ⟨hquot, hsteplen, hrem⟩ := digitStep_spec hv htop
        (by rw [List.length_cons, hrlen] : (x :: (longDivision v window xs).2).length = _)
        (val_cons_lt x hlt)
      have hdivmod := Nat.div_add_mod (val (x :: (longDivision v window xs).2)) (val v)
      have hstep : longDivision v window (x :: xs) =
          ((digitStep v (x :: (longDivision v window xs).2)).1 :: (longDivision v window xs).1,
            (digitStep v (x :: (longDivision v window xs).2)).2) := rfl
      rw [hstep]
      refine ⟨by rw [List.length_cons, List.length_cons, hqlen], hsteplen, ?_, ?_⟩
      · show val ((digitStep v (x :: (longDivision v window xs).2)).1 ::
          (longDivision v window xs).1) * val v +
            val (digitStep v (x :: (longDivision v window xs).2)).2 = val (x :: (xs ++ window))
        rw [val_cons, hquot, hrem, val_cons x (xs ++ window), ← hval]
        have hstate := val_cons x (longDivision v window xs).2
        calc (val (x :: (longDivision v window xs).2) / val v +
              2 ^ w.bits * val (longDivision v window xs).1) * val v +
                val (x :: (longDivision v window xs).2) % val v
            = val v * (val (x :: (longDivision v window xs).2) / val v) +
                val (x :: (longDivision v window xs).2) % val v +
                2 ^ w.bits * (val (longDivision v window xs).1 * val v) := by ring
          _ = x.toNat + 2 ^ w.bits * (val (longDivision v window xs).1 * val v +
                val (longDivision v window xs).2) := by rw [hdivmod, hstate]; ring
      · show val (digitStep v (x :: (longDivision v window xs).2)).2 < val v
        rw [hrem]
        exact Nat.mod_lt _ (by omega)

/-! ## Division with remainder -/

/-- The weight of the top word bounds it from below. -/
theorem le_fromTop {a : Limbs w} {x : Nat} (hne : a.length ≠ 0)
    (h : 2 ^ (w.bits * (a.length - 1)) * x ≤ val a) : x ≤ (fromTop a 0).toNat := by
  obtain ⟨rest, htop, hlen⟩ := exists_top (List.ne_nil_of_length_pos (by omega : 0 < a.length))
  have hrest := val_lt rest
  have hlow : a.length - 1 = rest.length := by omega
  rw [val_top htop, hlow] at h
  have hlt : 2 ^ (w.bits * rest.length) * x <
      2 ^ (w.bits * rest.length) * ((fromTop a 0).toNat + 1) := by
    rw [Nat.mul_succ]
    omega
  exact Nat.lt_succ_iff.mp (Nat.lt_of_mul_lt_mul_left hlt)

/-- A number too large for one word less has a nonzero top word. -/
theorem fromTop_pos {a : Limbs w} (hne : a.length ≠ 0)
    (h : 2 ^ (w.bits * (a.length - 1)) ≤ val a) : 0 < (fromTop a 0).toNat :=
  le_fromTop hne (by rwa [Nat.mul_one])

/-- The normalising shift: it fits the divisor's words and sets the top bit. -/
theorem leadingZeros_spec {a : Limbs w} (ha : a.length = wordLen a) (hne : wordLen a ≠ 0) :
    (fromTop a 0).leadingZeros < w.bits ∧
      val a * 2 ^ (fromTop a 0).leadingZeros < 2 ^ (w.bits * a.length) ∧
      2 ^ (w.bits * (a.length - 1)) * 2 ^ (w.bits - 1) ≤
        val a * 2 ^ (fromTop a 0).leadingZeros := by
  obtain ⟨rest, htop, hlen⟩ := exists_top (List.ne_nil_of_length_pos (by omega : 0 < a.length))
  have hval := val_top htop
  have hrest := val_lt rest
  have hpos : 0 < (fromTop a 0).toNat := by
    apply fromTop_pos (by omega)
    rw [ha]
    exact (wordLen_bounds a).2 hne
  have hlow : a.length - 1 = rest.length := by omega
  obtain ⟨hshift, hbit, hroom⟩ := Word.leadingZeros_spec hpos.ne'
  generalize (fromTop a 0).leadingZeros = n at *
  refine ⟨hshift, ?_, ?_⟩
  · rw [← hlen, radix_succ, hval]
    calc (val rest + 2 ^ (w.bits * rest.length) * (fromTop a 0).toNat) * 2 ^ n
        < 2 ^ (w.bits * rest.length) * ((fromTop a 0).toNat + 1) * 2 ^ n := by
          refine Nat.mul_lt_mul_of_pos_right ?_ (Nat.two_pow_pos _)
          rw [Nat.mul_succ]
          omega
      _ = 2 ^ (w.bits * rest.length) * (((fromTop a 0).toNat + 1) * 2 ^ n) := Nat.mul_assoc _ _ _
      _ ≤ 2 ^ (w.bits * rest.length) * 2 ^ w.bits := Nat.mul_le_mul_left _ hroom
      _ = 2 ^ w.bits * 2 ^ (w.bits * rest.length) := Nat.mul_comm _ _
  · rw [hlow, hval]
    calc 2 ^ (w.bits * rest.length) * 2 ^ (w.bits - 1)
        ≤ 2 ^ (w.bits * rest.length) * ((fromTop a 0).toNat * 2 ^ n) :=
          Nat.mul_le_mul_left _ hbit
      _ = 2 ^ (w.bits * rest.length) * (fromTop a 0).toNat * 2 ^ n := (Nat.mul_assoc _ _ _).symm
      _ ≤ (val rest + 2 ^ (w.bits * rest.length) * (fromTop a 0).toNat) * 2 ^ n :=
          Nat.mul_le_mul_right _ (Nat.le_add_left _ _)

/-- The first window lies below the divisor. -/
theorem val_firstWindow_lt {u v : Limbs w} {na nb s : Nat} (hu : u.length = na + 1)
    (hnb : 0 < nb) (hle : nb ≤ na) (hlo : 2 ^ (w.bits * (nb - 1)) * 2 ^ s ≤ val v)
    (hhi : val u < 2 ^ (w.bits * na) * 2 ^ s) : val (u.drop (na + 1 - nb)) < val v := by
  rw [val_drop u (by omega)]
  refine Nat.div_lt_of_lt_mul (lt_of_lt_of_le hhi ?_)
  calc 2 ^ (w.bits * na) * 2 ^ s
      = 2 ^ (w.bits * (na + 1 - nb)) * (2 ^ (w.bits * (nb - 1)) * 2 ^ s) := by
        rw [← Nat.mul_assoc, ← Nat.pow_add (m := w.bits * (na + 1 - nb)), ← Nat.mul_add]
        congr 3
        omega
    _ ≤ 2 ^ (w.bits * (na + 1 - nb)) * val v := Nat.mul_le_mul_left _ hlo

/-- Quotient and remainder of numbers that were both scaled by `k`. -/
theorem scaled_division {a b k q r : Nat} (hk : 0 < k) (hval : q * (b * k) + r = a * k)
    (hlt : r < b * k) : q = a / b ∧ r / k = a % b := by
  have hdiv : a * k / (b * k) = q ∧ a * k % (b * k) = r :=
    Nat.div_mod_unique (by omega) |>.mpr ⟨by rw [← hval, Nat.mul_comm q, Nat.add_comm], hlt⟩
  rw [Nat.mul_div_mul_right _ _ hk, Nat.mul_mod_mul_right] at hdiv
  exact ⟨hdiv.1.symm, by rw [← hdiv.2, Nat.mul_div_cancel _ hk]⟩

/-- How far a divisor is shifted to set its top bit. -/
def normalShift (b : Limbs w) : Nat := (fromTop (trim b) 0).leadingZeros

/-- A divisor without its leading zero words, shifted until its top bit is set. -/
def normalised (b : Limbs w) : Limbs w := (shlWithin (trim b) (normalShift b)).1

/-- A dividend without its leading zero words, shifted by `n` bits into one word
more. -/
def shifted (a : Limbs w) (n : Nat) : Limbs w :=
  (shlWithin (trim a) n).1 ++ [(shlWithin (trim a) n).2]

theorem length_normalised (b : Limbs w) : (normalised b).length = wordLen b := by
  rw [normalised, length_shlWithin, length_trim]

theorem length_shifted (a : Limbs w) (n : Nat) : (shifted a n).length = wordLen a + 1 := by
  rw [shifted, List.length_append, length_shlWithin, length_trim, List.length_singleton]

theorem val_shifted (a : Limbs w) {n : Nat} (hn : n < w.bits) :
    val (shifted a n) = val a * 2 ^ n := by
  rw [shifted, val_append, length_shlWithin, val_cons, val_nil, Nat.mul_zero, Nat.add_zero,
    (val_shlWithin (trim a) hn).1, val_trim]

theorem normalised_spec {b : Limbs w} (hb : wordLen b ≠ 0) :
    normalShift b < w.bits ∧ val (normalised b) = val b * 2 ^ normalShift b ∧
      2 ^ (w.bits - 1) ≤ (fromTop (normalised b) 0).toNat := by
  obtain ⟨hshift, hfit, htop⟩ := leadingZeros_spec (a := trim b)
    (by rw [length_trim, wordLen_congr (val_trim b)]) (by rwa [wordLen_congr (val_trim b)])
  have hval := val_shlWithin_of_lt hshift hfit
  rw [length_trim, ← hval] at htop
  rw [val_trim] at hval
  refine ⟨hshift, hval, le_fromTop (by rwa [length_normalised]) ?_⟩
  rwa [length_normalised]

theorem normalised_top_pos {b : Limbs w} (hb : wordLen b ≠ 0) :
    0 < (fromTop (normalised b) 0).toNat :=
  (Nat.two_pow_pos _).trans_le (normalised_spec hb).2.2

/-- The divisor loses no more by its shift than the dividend, which has no word above its
own. -/
theorem firstWindow_lt {a b : Limbs w} (hb : wordLen b ≠ 0) (hle : wordLen b ≤ wordLen a) :
    val ((shifted a (normalShift b)).drop (wordLen a + 1 - wordLen b)) < val (normalised b) := by
  obtain ⟨hshift, hv, -⟩ := normalised_spec hb
  refine @val_firstWindow_lt w _ _ _ _ (normalShift b) (length_shifted a _)
    (Nat.pos_of_ne_zero hb) hle ?_ ?_
  · rw [hv]
    exact Nat.mul_le_mul_right _ ((wordLen_bounds b).2 hb)
  · rw [val_shifted a hshift]
    exact Nat.mul_lt_mul_of_pos_right (wordLen_bounds a).1 (Nat.two_pow_pos _)

/-- The windows of the shifted dividend, divided by the normalised divisor. -/
def windows (a b : Limbs w) : Limbs w × Limbs w :=
  let u := shifted a (normalShift b)
  longDivision (normalised b) (u.drop (wordLen a + 1 - wordLen b))
    (u.take (wordLen a + 1 - wordLen b))

theorem divideLong_windows (a b : Limbs w) :
    Work.Computes (divideLong a b) (wordLen a + 1 + wordLen b)
      (.ok ((windows a b).1, (shrWithin (windows a b).2 (normalShift b)).1)) := by
  unfold divideLong
  refine Work.Computes.withBuffer
    (fun _ _ => ⟨extend (shrWithin (windows a b).2 (normalShift b)).1 (wordLen a + 1), ?_⟩)
  exact @Work.Computes.withBuffer w _ _ 0 _ _ (fun _ _ => ⟨normalised b, Work.computes_pure _⟩)

/-- The windows give the quotient, and what the last one leaves the remainder. -/
theorem windows_spec {a b : Limbs w} (hb : 2 ≤ wordLen b) (hab : val b ≤ val a) :
    val (windows a b).1 = val a / val b ∧
      (shrWithin (windows a b).2 (normalShift b)).1.length = wordLen b ∧
      val (shrWithin (windows a b).2 (normalShift b)).1 = val a % val b := by
  have hlen := wordLen_mono hab
  -- both operands lose their leading zero words and are shifted until the divisor's top bit is set
  unfold windows
  dsimp only
  obtain ⟨hshift, hv, -⟩ := normalised_spec (b := b) (by omega)
  have htop := normalised_top_pos (b := b) (by omega)
  -- the top of the dividend is below the divisor, so the windows give all words of the quotient
  have hfirst := firstWindow_lt (a := a) (b := b) (by omega) hlen
  have hvlen := length_normalised b
  have hu := val_shifted a hshift
  have hulen := length_shifted a (normalShift b)
  generalize normalShift b = s at *
  generalize normalised b = v at *
  generalize shifted a s = u at *
  obtain ⟨-, hrlen, hval, hlt⟩ := longDivision_spec (by omega) htop
    (by rw [List.length_drop, hulen, hvlen]; omega) hfirst (u.take (wordLen a + 1 - wordLen b))
  rw [List.take_append_drop, hu, hv] at hval
  rw [hv] at hlt
  obtain ⟨hquot, hrem⟩ := scaled_division (Nat.two_pow_pos s) hval hlt
  refine ⟨hquot, ?_, ?_⟩
  · rw [length_shrWithin, hrlen, hvlen]
  · rw [val_shrWithin _ hshift, hrem]

/-- Words beyond the room of a number are zero. -/
theorem isZero_drop {q : Limbs w} {room : Nat} (h : val q < 2 ^ (w.bits * room)) :
    isZero (q.drop room) = true := by
  rw [isZero_iff]
  rcases Nat.le_total room q.length with hle | hle
  · rw [val_drop q hle, Nat.div_eq_of_lt h]
  · rw [List.drop_eq_nil_of_le hle, val_nil]

/-- A quotient that fits is only padded. -/
theorem fitQuotient_eq {room : Nat} {q : Limbs w} (h : val q < 2 ^ (w.bits * room)) :
    fitQuotient room q = .ok (extend (q.take room) room) := by
  rw [fitQuotient, Checked.require_of (isZero_drop h)]
  rfl

theorem length_divWord (a : Limbs w) (m : Word w) : (divWord a m).1.length = a.length := by
  induction a with
  | nil => rfl
  | cons x xs ih => simp [divWord, ih]

theorem length_longDivision (v window low : Limbs w) :
    (longDivision v window low).1.length = low.length := by
  induction low with
  | nil => rfl
  | cons x xs ih => exact congrArg (· + 1) ih

/-! ## The three ways of a division -/

section Ways

variable {a b : Limbs w} {qRoom : Nat}

theorem not_less_of_le (h : val b ≤ val a) : ¬ less a b = true :=
  fun hless => absurd ((less_iff a b).mp hless) (not_lt.mpr h)

/-- A smaller dividend has no more words than the divisor. -/
theorem wordLen_le_of_less (h : val a < val b) : wordLen a ≤ b.length :=
  (wordLen_mono h.le).trans (wordLen_le_length b)

/-- A divisor of one word is that word. -/
theorem headD_ne_zero (hb : wordLen b = 1) : b.headD 0 ≠ 0 := by
  intro h
  have hval := val_eq_headD (by omega : wordLen b ≤ 1)
  rw [h, Word.toNat_zero, ← wordLen_eq_zero_iff] at hval
  omega

/-- A smaller dividend is its own remainder. -/
theorem divRem_less (hb : wordLen b ≠ 0) (h : val a < val b) :
    Work.Computes (divRem qRoom b.length a b) 0
      (.ok (zeros qRoom, extend (trim a) b.length)) := by
  refine .lift_bind (Checked.require_of rfl _) (.lift_bind (Checked.require_of hb _) ?_)
  rw [if_pos ((less_iff a b).mpr h)]
  exact Work.computes_pure _

/-- A divisor of one word goes through the dividend word by word. -/
theorem divRem_word (hb : wordLen b = 1) (h : val b ≤ val a) (hroom : wordLen a ≤ qRoom) :
    Work.Computes (divRem qRoom b.length a b) 0
      (.ok (extend (divWord (trim a) (b.headD 0)).1 qRoom,
        extend [(divWord (trim a) (b.headD 0)).2] b.length)) := by
  refine .lift_bind (Checked.require_of rfl _) (.lift_bind (Checked.require_of (by omega) _) ?_)
  rw [if_neg (not_less_of_le h), if_pos hb]
  exact .lift_bind (Checked.require_of hroom _) (Work.computes_pure _)

/-- A division by one word starts from a copy of the dividend, which a shorter
destination has no place for. -/
theorem divRem_short (hb : wordLen b = 1) (h : val b ≤ val a) (hroom : qRoom < wordLen a) :
    Work.Computes (divRem qRoom b.length a b) 0 (.error .outOfRange) := by
  refine .lift_bind (Checked.require_of rfl _) (.lift_bind (Checked.require_of (by omega) _) ?_)
  rw [if_neg (not_less_of_le h), if_pos hb, require, if_neg (by omega)]
  exact (Work.computes_lift _).bind_error

theorem divRem_long {q q' r : Limbs w} {depth : Nat} (hb : 2 ≤ wordLen b) (h : val b ≤ val a)
    (hlong : Work.Computes (divideLong a b) depth (.ok (q, r)))
    (hfit : fitQuotient qRoom q = .ok q') :
    Work.Computes (divRem qRoom b.length a b) depth (.ok (q', extend r b.length)) := by
  refine .lift_bind (Checked.require_of rfl _) (.lift_bind (Checked.require_of (by omega) _) ?_)
  rw [if_neg (not_less_of_le h), if_neg (by omega)]
  exact hlong.bind (.lift_bind hfit ((Work.computes_pure _).mono (Nat.zero_le _)))

theorem modReduce_less (hb : wordLen b ≠ 0) (h : val a < val b) :
    Work.Computes (modReduce b.length a b) 0 (.ok (extend (trim a) b.length)) := by
  refine .lift_bind (Checked.require_of rfl _) (.lift_bind (Checked.require_of hb _) ?_)
  rw [if_pos ((less_iff a b).mpr h)]
  exact Work.computes_pure _

theorem modReduce_word (hb : wordLen b = 1) (h : val b ≤ val a) :
    Work.Computes (modReduce b.length a b) 0
      (.ok (extend [remWord (trim a) (b.headD 0)] b.length)) := by
  refine .lift_bind (Checked.require_of rfl _) (.lift_bind (Checked.require_of (by omega) _) ?_)
  rw [if_neg (not_less_of_le h), if_pos hb]
  exact Work.computes_pure _

theorem modReduce_long {q r : Limbs w} {depth : Nat} (hb : 2 ≤ wordLen b) (h : val b ≤ val a)
    (hlong : Work.Computes (divideLong a b) depth (.ok (q, r))) :
    Work.Computes (modReduce b.length a b) depth (.ok (extend r b.length)) := by
  refine .lift_bind (Checked.require_of rfl _) (.lift_bind (Checked.require_of (by omega) _) ?_)
  rw [if_neg (not_less_of_le h), if_neg (by omega)]
  exact hlong.bind ((Work.computes_pure _).mono (Nat.zero_le _))

end Ways

/-- Room for the nonzero words of a quotient, and for the dividend where a division
starts from a copy of it. -/
structure HasRoom (a b : Limbs w) (qRoom : Nat) : Prop where
  holds : val a / val b < 2 ^ (w.bits * qRoom)
  copies : wordLen b = 1 → val b ≤ val a → wordLen a ≤ qRoom

/-- As many words as the dividend has above the top word of the divisor.  A
quotient that is zero needs none. -/
theorem hasRoom_of_wordLen {a b : Limbs w} {qRoom : Nat} (hb : val b ≠ 0)
    (hroom : val b ≤ val a → wordLen a + 1 ≤ qRoom + wordLen b) : HasRoom a b qRoom where
  holds := by
    have hwords : wordLen b ≠ 0 := mt (wordLen_eq_zero_iff b).mp hb
    rcases Nat.lt_or_ge (val a) (val b) with hless | hge
    · rw [Nat.div_eq_of_lt hless]
      exact radix_pos w qRoom
    · have hle : wordLen a ≤ wordLen b - 1 + qRoom := by
        have := hroom hge
        omega
      refine Nat.div_lt_of_lt_mul ?_
      calc val a < 2 ^ (w.bits * wordLen a) := (wordLen_bounds a).1
        _ ≤ 2 ^ (w.bits * (wordLen b - 1 + qRoom)) := radix_le w hle
        _ = 2 ^ (w.bits * (wordLen b - 1)) * 2 ^ (w.bits * qRoom) := by
            rw [Nat.mul_add, Nat.pow_add]
        _ ≤ val b * 2 ^ (w.bits * qRoom) :=
            Nat.mul_le_mul_right _ ((wordLen_bounds b).2 hwords)
  copies hone hge := by
    have := hroom hge
    omega

/-- Quotient and remainder, on all three paths, into a quotient with room. -/
theorem divRem_room {a b : Limbs w} {qRoom : Nat} (hb : val b ≠ 0) (hroom : HasRoom a b qRoom) :
    ∃ q r : Limbs w,
      Work.Computes (divRem qRoom b.length a b) (divRemDepth a.length b.length) (.ok (q, r)) ∧
      q.length = qRoom ∧ val q = val a / val b ∧
      r.length = b.length ∧ val r = val a % val b := by
  have hlena := wordLen_le_length a
  have hlenb := wordLen_le_length b
  have hwords : wordLen b ≠ 0 := fun h => hb ((wordLen_eq_zero_iff b).mp h)
  rcases Nat.lt_or_ge (val a) (val b) with hless | hge
  · refine ⟨zeros qRoom, extend (trim a) b.length,
      (divRem_less hwords hless).mono (Nat.zero_le _), length_zeros _, ?_,
      length_extend ((length_trim a).trans_le (wordLen_le_of_less hless)), ?_⟩
    · rw [val_zeros, Nat.div_eq_of_lt hless]
    · rw [val_extend, val_trim, Nat.mod_eq_of_lt hless]
  · by_cases hone : wordLen b = 1
    · have hqroom := hroom.copies hone hge
      have hdivisor : val b = (b.headD 0).toNat := val_eq_headD (by omega)
      obtain ⟨hval, hlt⟩ := val_divWord (trim a) (m := b.headD 0) (by omega)
      rw [val_trim, ← hdivisor] at hval
      rw [← hdivisor] at hlt
      obtain ⟨hquot, hrem⟩ := scaled_division (a := val a) (b := val b) Nat.one_pos
        (by rw [Nat.mul_one, Nat.mul_one]; exact hval) (by rw [Nat.mul_one]; exact hlt)
      refine ⟨extend (divWord (trim a) (b.headD 0)).1 qRoom,
        extend [(divWord (trim a) (b.headD 0)).2] b.length,
        (divRem_word hone hge hqroom).mono (Nat.zero_le _), length_extend ?_, ?_,
        length_extend ?_, ?_⟩
      · rwa [length_divWord, length_trim]
      · rw [val_extend, hquot]
      · rw [List.length_singleton]
        omega
      · rw [val_extend, val_cons, val_nil, Nat.mul_zero, Nat.add_zero, ← hrem, Nat.div_one]
    · obtain ⟨hq, hrlen, hr⟩ := windows_spec (a := a) (b := b) (by omega) hge
      have hfit : val (windows a b).1 < 2 ^ (w.bits * qRoom) := hq ▸ hroom.holds
      exact ⟨_, _,
        (divRem_long (by omega) hge (divideLong_windows a b) (fitQuotient_eq hfit)).mono
          (by rw [divRemDepth]; omega),
        length_extend (List.length_take_le _ _),
        by rw [val_extend, val_take_of_lt hfit, hq], length_extend (by omega),
        by rw [val_extend, hr]⟩

/-- The same with as many words as the quotient can need. -/
theorem divRem_fits {a b : Limbs w} {qRoom : Nat} (hb : val b ≠ 0)
    (hroom : val b ≤ val a → wordLen a + 1 ≤ qRoom + wordLen b) :
    ∃ q r : Limbs w,
      Work.Computes (divRem qRoom b.length a b) (divRemDepth a.length b.length) (.ok (q, r)) ∧
      q.length = qRoom ∧ val q = val a / val b ∧
      r.length = b.length ∧ val r = val a % val b :=
  divRem_room hb (hasRoom_of_wordLen hb hroom)

/-- The same with room for the significant words of the dividend. -/
theorem divRem_computes {a b : Limbs w} {qRoom : Nat} (hb : val b ≠ 0)
    (hroom : wordLen a ≤ qRoom) :
    ∃ q r : Limbs w,
      Work.Computes (divRem qRoom b.length a b) (divRemDepth a.length b.length) (.ok (q, r)) ∧
      q.length = qRoom ∧ val q = val a / val b ∧
      r.length = b.length ∧ val r = val a % val b := by
  have hwords : wordLen b ≠ 0 := mt (wordLen_eq_zero_iff b).mp hb
  exact divRem_fits hb fun _ => by omega

/-- The remainder alone, on the same three paths. -/
theorem modReduce_computes {a m : Limbs w} (hm : val m ≠ 0) :
    ∃ r : Limbs w,
      Work.Computes (modReduce m.length a m) (divRemDepth a.length m.length) (.ok r) ∧
      r.length = m.length ∧ val r = val a % val m := by
  have hlena := wordLen_le_length a
  have hlenm := wordLen_le_length m
  have hwords : wordLen m ≠ 0 := mt (wordLen_eq_zero_iff m).mp hm
  rcases Nat.lt_or_ge (val a) (val m) with hless | hge
  · refine ⟨extend (trim a) m.length, (modReduce_less hwords hless).mono (Nat.zero_le _),
      length_extend ((length_trim a).trans_le (wordLen_le_of_less hless)), ?_⟩
    rw [val_extend, val_trim, Nat.mod_eq_of_lt hless]
  by_cases hone : wordLen m = 1
  · have hmodulus : val m = (m.headD 0).toNat := val_eq_headD (by omega)
    refine ⟨extend [remWord (trim a) (m.headD 0)] m.length,
      (modReduce_word hone hge).mono (Nat.zero_le _), length_extend ?_, ?_⟩
    · rw [List.length_singleton]
      omega
    · rw [val_extend, val_cons, val_nil, Nat.mul_zero, Nat.add_zero, toNat_remWord _ (by omega),
        val_trim, hmodulus]
  · obtain ⟨-, hrlen, hr⟩ := windows_spec (a := a) (b := m) (by omega) hge
    exact ⟨_, (modReduce_long (by omega) hge (divideLong_windows a m)).mono
      (by rw [divRemDepth]; omega), length_extend (by omega), by rw [val_extend, hr]⟩

end CryptoPrimes.Limbs
