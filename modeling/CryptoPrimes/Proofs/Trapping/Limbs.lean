import CryptoPrimes.Proofs.Limbs.Division
import CryptoPrimes.Proofs.Trapping.Machine
import CryptoPrimes.Trapping.Limbs

/-!
# Trapping arithmetic does not trap

Every routine of `CryptoPrimes.Trapping.Limbs` has the result of the plain one.
Rows need no more than operands of one length: the double word of a product has
room for two more words, and the borrow of a subtracting row for one more bit.
Where positions are computed, the length of the number must fit the machine, and
where bits are counted, its length in bits.
-/

namespace CryptoPrimes.Trapping

open Limbs

variable {w : Width}

/-! ## Checked forms on operands of one length -/

section

variable {a b : Limbs w}

theorem compareSame_eq (h : a.length = b.length) : compareSame a b = .ok (Limbs.compare a b) := by
  rw [compareSame, Checked.require_of h]
  rfl

theorem isLT_compare (a b : Limbs w) : (Limbs.compare a b).isLT = less a b := rfl

theorem equalSame_eq (h : a.length = b.length) : equalSame a b = .ok (a == b) := by
  rw [equalSame, Checked.require_of h]
  rfl

theorem add_eq {room : Nat} (ha : room = a.length) (hb : a.length = b.length) :
    add room a b = .ok (addCarry a b false) := by
  rw [add, Checked.require_of ⟨ha, hb⟩]
  rfl

theorem sub_eq {room : Nat} (ha : room = a.length) (hb : a.length = b.length) :
    sub room a b = .ok (subBorrow a b false) := by
  rw [sub, Checked.require_of ⟨ha, hb⟩]
  rfl

theorem subWordTo_eq (a : Limbs w) (x : Word w) : subWordTo a.length a x = .ok (subWord a x) := by
  rw [subWordTo, Checked.require_of rfl]
  rfl

theorem assignIf_eq (bit : Word w) (h : a.length = b.length) :
    assignIf bit a b = .ok (choose bit b a) := by
  rw [assignIf, Checked.require_of h]
  rfl

theorem shlCarry_eq (a : Limbs w) {n : Nat} (hn : n < w.bits) :
    shlCarry a n = .ok (shlWithin a n) := by
  rw [shlCarry, Checked.require_of hn]
  rfl

theorem shrCarry_eq (a : Limbs w) {n : Nat} (hn : n < w.bits) :
    shrCarry a n = .ok (shrWithin a n) := by
  rw [shrCarry, Checked.require_of hn]
  rfl

end

/-! ## Rows -/

/-- A double word is known by its value. -/
theorem doubleWord_ext {d e : Word w × Word w}
    (h : d.1.toNat + 2 ^ w.bits * d.2.toNat = e.1.toNat + 2 ^ w.bits * e.2.toNat) : d = e := by
  have hlow : d.1.toNat = e.1.toNat := by
    have hmod := congrArg (· % 2 ^ w.bits) h
    simpa only [Nat.add_mul_mod_self_left, Nat.mod_eq_of_lt (Word.toNat_lt _)] using hmod
  have hhigh : d.2.toNat = e.2.toNat :=
    Nat.eq_of_mul_eq_mul_left (Nat.two_pow_pos w.bits) (by omega)
  exact Prod.ext (Word.ext hlow) (Word.ext hhigh)

theorem mulAddWord_eq (x y acc carry : Word w) :
    mulAddWord x y acc carry = .ok (Word.mulAdd x y acc carry) := by
  have hfit := product_lt x.toNat_lt y.toNat_lt acc.toNat_lt carry.toNat_lt
  have hproduct := Word.toNat_mulAdd x y 0 0
  rw [Word.toNat_zero, Nat.add_zero] at hproduct
  obtain ⟨d, hd, hdval⟩ := doubleSum_eq (d := Word.mulAdd x y 0 0) (x := acc) (by omega)
  obtain ⟨e, he, heval⟩ := doubleSum_eq (d := d) (x := carry) (by omega)
  have hsame : e = Word.mulAdd x y acc carry :=
    doubleWord_ext (by rw [heval, hdval, hproduct, Word.toNat_mulAdd])
  rw [mulAddWord, hd, ← hsame]
  exact he

theorem addRow_eq (c a : Limbs w) (x carry : Word w) :
    addRow c a x carry = .ok (Limbs.mulAdd c a x carry) := by
  induction c generalizing a carry with
  | nil => cases a <;> rfl
  | cons y ys ih =>
      cases a with
      | nil => rfl
      | cons z zs =>
          rw [addRow, mulAddWord_eq, Checked.ok_bind, ih]
          rfl

theorem subRow_eq (c a : Limbs w) (x borrow : Word w) :
    subRow c a x borrow = .ok (Limbs.mulSub c a x borrow) := by
  induction c generalizing a borrow with
  | nil => cases a <;> rfl
  | cons y ys ih =>
      cases a with
      | nil => rfl
      | cons z zs =>
          have hroom := mulSub_room y z x borrow
          rw [subRow, mulAddWord_eq, Checked.ok_bind,
            wordSum_eq (by rwa [Word.toNat_ofBool]), Checked.ok_bind, ih]
          rfl

theorem addMulWord_eq {c a : Limbs w} (h : c.length = a.length) (x : Word w) :
    addMulWord c a x = .ok (Limbs.mulAdd c a x 0) := by
  rw [addMulWord, Checked.require_of h]
  exact addRow_eq c a x 0

theorem subMulWord_eq {c a : Limbs w} (h : c.length = a.length) (x : Word w) :
    subMulWord c a x = .ok (Limbs.mulSub c a x 0) := by
  rw [subMulWord, Checked.require_of h]
  exact subRow_eq c a x 0

/-! ## The product -/

/-- What the rows still to come are added to is a window as long as `a`: the
words before it are final, those behind it still zero. -/
theorem mulRows_eq (a : Limbs w) (ys : Limbs w) {done acc : Limbs w} {i : Nat}
    (hdone : done.length = i) (hacc : acc.length = a.length)
    (hsize : i + a.length + ys.length < sizeLimit) :
    mulRows a i (done ++ (acc ++ zeros ys.length)) ys =
      .ok (done ++ Limbs.mulRows a acc ys) := by
  induction ys generalizing done acc i with
  | nil =>
      rw [mulRows, Limbs.mulRows]
      exact congrArg (fun c => Except.ok (done ++ c)) (List.append_nil acc)
  | cons y ys ih =>
      rw [List.length_cons] at hsize ⊢
      have hrow := length_mulAdd hacc y 0
      generalize hr : Limbs.mulAdd acc a y 0 = row at hrow
      have hzeros : (zeros (ys.length + 1) : Limbs w) = 0 :: zeros ys.length := rfl
      -- after the row the window is one word longer, and its lowest word is final
      obtain ⟨x, rest, hx⟩ : ∃ x rest, row.1 ++ [row.2] = x :: rest :=
        List.exists_cons_of_ne_nil (by simp)
      have hrest : rest.length = a.length := by
        have := congrArg List.length hx
        simp only [List.length_append, List.length_cons, List.length_nil] at this
        omega
      have hdone' : (done ++ [x]).length = i + 1 := by
        rw [List.length_append, hdone, List.length_singleton]
      have hnext := ih hdone' hrest (by omega)
      have hwhole : done ++ row.1 ++ row.2 :: zeros ys.length =
          done ++ [x] ++ (rest ++ zeros ys.length) := by
        rw [List.append_assoc, List.append_cons row.1, hx, List.append_assoc,
          List.singleton_append, List.cons_append]
      rw [mulRows, checkedSize_eq (by omega), Checked.ok_bind,
        slice_append hdone (by rw [hacc]), Checked.ok_bind, addMulWord_eq hacc, hr,
        Checked.ok_bind, write_append hdone (by rw [hacc]) hrow, Checked.ok_bind, hzeros,
        ← List.append_assoc, setWord_append (by rw [List.length_append]; omega), Checked.ok_bind,
        hwhole, hnext, Limbs.mulRows, hr, hx, List.append_assoc]
      rfl

theorem mul_eq {a b : Limbs w} (hsize : a.length + b.length < sizeLimit) :
    mul (a.length + b.length) a b = .ok (Limbs.mul a b) := by
  have hzeros : (zeros (a.length + b.length) : Limbs w) =
      [] ++ (zeros a.length ++ zeros b.length) := List.replicate_append_replicate.symm
  rw [mul, Checked.require_of rfl, hzeros]
  exact mulRows_eq a b rfl (length_zeros _) (by omega)

/-! ## Order -/

/-- A nonzero word beyond the common length decides. -/
theorem val_lt_of_longer {a b : Limbs w} {n : Nat} (hn : n = min a.length b.length)
    (h : isZero (a.drop n) = false) : val b < val a := by
  have hne := (isZero_eq_false_iff (a.drop n)).mp h
  have hb : b.length = n := by
    by_contra hlonger
    have hdrop : a.drop n = [] := List.drop_eq_nil_of_le (by omega)
    rw [hdrop] at hne
    exact hne rfl
  have hcut := val_take_add_drop a (n := n) (by omega)
  have hle := Nat.mul_le_mul_left (2 ^ (w.bits * n)) (Nat.one_le_iff_ne_zero.mpr hne)
  have hlt := val_lt b
  rw [hb] at hlt
  omega

theorem compareAny_eq (a b : Limbs w) : compareAny a b = .ok (Limbs.compare a b) := by
  generalize hn : min a.length b.length = n
  have hna : n ≤ a.length := by omega
  have hnb : n ≤ b.length := by omega
  rw [compareAny, hn, slice_back hna, slice_back hnb, slice_front hna, slice_front hnb]
  simp only [Checked.ok_bind]
  rw [compare_eq]
  cases ha : isZero (a.drop n) with
  | false =>
      rw [Nat.compare_eq_gt.mpr (val_lt_of_longer hn.symm ha)]
      rfl
  | true =>
      cases hb : isZero (b.drop n) with
      | false =>
          rw [Nat.compare_eq_lt.mpr (val_lt_of_longer (by rw [Nat.min_comm, hn]) hb)]
          rfl
      | true =>
          have hva := val_take_add_drop a hna
          have hvb := val_take_add_drop b hnb
          rw [isZero_iff.mp ha, Nat.mul_zero, Nat.add_zero] at hva
          rw [isZero_iff.mp hb, Nat.mul_zero, Nat.add_zero] at hvb
          have hlength : (a.take n).length = (b.take n).length := by
            rw [List.length_take, List.length_take]
            omega
          rw [← hva, ← hvb, ← compare_eq]
          exact compareSame_eq hlength

/-! ## Lengths and bits -/

/-- The highest nonzero word is the last of the trimmed number. -/
theorem exists_topWord {a : Limbs w} {n : Nat} (h : wordLen a = n + 1) :
    ∃ rest : Limbs w, rest.length = n ∧ trim a = rest ++ [fromTop (trim a) 0] ∧
      a = rest ++ fromTop (trim a) 0 :: a.drop (n + 1) := by
  have hlength := length_trim a
  obtain ⟨rest, hrest, hlen⟩ := exists_top (a := trim a)
    (List.ne_nil_of_length_eq_add_one (hlength.trans h))
  refine ⟨rest, by omega, hrest, ?_⟩
  rw [List.append_cons, ← hrest, trim, h, List.take_append_drop]

theorem wordAt_top {a : Limbs w} {n : Nat} (h : wordLen a = n + 1) :
    wordAt a n = .ok (fromTop (trim a) 0) := by
  obtain ⟨rest, hlen, -, hsplit⟩ := exists_topWord h
  generalize fromTop (trim a) 0 = top at hsplit ⊢
  rw [hsplit]
  exact wordAt_append hlen

/-- Only the significant words are counted. -/
theorem bitLen_of_wordLen {a : Limbs w} (h : w.bits * wordLen a < sizeLimit) :
    bitLen a = .ok (Limbs.bitLen a) := by
  rw [bitLen, bitLen_eq_size]
  cases hn : wordLen a with
  | zero =>
      rw [(wordLen_eq_zero_iff a).mp hn, Nat.size_zero]
      rfl
  | succ n =>
      obtain ⟨rest, hlen, htrim, -⟩ := exists_topWord hn
      have hval := val_top htrim
      generalize htop : fromTop (trim a) 0 = top at hval
      have hne : top.toNat ≠ 0 := by
        intro hzero
        have hlow := (wordLen_bounds a).2 (by omega)
        have hlt := val_lt rest
        rw [val_trim, hzero, Nat.mul_zero, Nat.add_zero] at hval
        rw [hn, Nat.add_sub_cancel, hval] at hlow
        rw [hlen] at hlt
        omega
      have hsize : Nat.size (val a) = Nat.size top.toNat + w.bits * n := by
        rw [← val_trim, hval, hlen, size_add_mul_two_pow (hlen ▸ val_lt rest) hne]
      have hfits : Nat.size top.toNat ≤ w.bits := top.size_le_bits
      have hbits : (n + 1) * w.bits = w.bits * n + w.bits := by
        rw [Nat.mul_comm, Nat.mul_succ]
      rw [hn, Nat.mul_comm] at h
      simp only [checkedSize_eq h, wordAt_top hn, htop,
        Checked.ok_bind, Word.leadingZeros_eq]
      rw [difference_eq (by omega), hsize]
      congr 1
      omega

theorem bitLen_eq {a : Limbs w} (h : w.bits * a.length < sizeLimit) :
    bitLen a = .ok (Limbs.bitLen a) :=
  bitLen_of_wordLen ((Nat.mul_le_mul_left _ (wordLen_le_length a)).trans_lt h)

/-- The lowest nonzero word, if there is one, has the lowest set bit. -/
theorem trailingZeros_find (a : Limbs w) :
    match a.findIdx? (· != 0) with
    | none => isZero a = true ∧ Limbs.trailingZeros a = 0
    | some i => isZero a = false ∧ i < a.length ∧ ∃ x, wordAt a i = .ok x ∧
        Limbs.trailingZeros a = i * w.bits + x.trailingZeros ∧ x.trailingZeros < w.bits := by
  induction a with
  | nil => exact ⟨rfl, rfl⟩
  | cons x xs ih =>
      rw [List.findIdx?_cons]
      by_cases hx : x = 0
      · have hzero : isZero (x :: xs) = isZero xs := by simp [isZero, hx]
        rw [if_neg (by simp [hx]), hzero, Limbs.trailingZeros, if_pos hx]
        cases hi : xs.findIdx? (· != 0) with
        | none =>
            rw [hi] at ih
            exact ⟨ih.1, by rw [if_pos ih.1]⟩
        | some i =>
            rw [hi] at ih
            obtain ⟨hne, hlt, y, hy, hval, hbound⟩ := ih
            refine ⟨hne, Nat.succ_lt_succ hlt, y, hy, ?_, hbound⟩
            rw [hne, if_neg Bool.false_ne_true, hval, Nat.succ_mul, Nat.add_comm,
              Nat.add_right_comm]
      · have hne := Word.toNat_ne_zero hx
        rw [if_pos (by simp [hx]), Limbs.trailingZeros, if_neg hx]
        exact ⟨by simp [isZero, hx], Nat.succ_pos _, x, rfl, by omega,
          (Word.trailingZeros_spec hne).1⟩

theorem trailingZeros_eq {a : Limbs w} (h : w.bits * a.length < sizeLimit) :
    trailingZeros a = .ok (Limbs.trailingZeros a) := by
  have hfind := trailingZeros_find a
  rw [trailingZeros]
  cases hi : a.findIdx? (· != 0) with
  | none =>
      rw [hi] at hfind
      rw [hfind.2]
      rfl
  | some i =>
      rw [hi] at hfind
      obtain ⟨-, hlt, x, hx, hval, hbound⟩ := hfind
      have hroom := Nat.mul_le_mul_left w.bits (Nat.succ_le_of_lt hlt)
      rw [Nat.mul_succ, Nat.mul_comm] at hroom
      simp only [checkedSize_eq (by omega : i * w.bits < sizeLimit), hx, Checked.ok_bind]
      rw [checkedSize_eq (by omega), hval]

theorem slice_significant (a : Limbs w) : slice a 0 (wordLen a) = .ok (trim a) :=
  slice_front (wordLen_le_length a)

/-! ## Shifts and truncation -/

theorem shiftLeft_eq (a : Limbs w) (distance : Nat) :
    shiftLeft a distance = .ok (Limbs.shiftLeft a distance) := by
  generalize hwords : min (distance / w.bits) a.length = words
  have hle : words ≤ a.length := by omega
  have hlow : (a.take words).length = words := by
    rw [List.length_take]
    omega
  have hmoved : (a.take (a.length - words)).length = (a.drop words).length := by
    rw [List.length_take, List.length_drop]
    omega
  have hup : write (a.take words ++ a.drop words) words a.length (a.take (a.length - words)) =
      .ok (a.take words ++ a.take (a.length - words)) :=
    write_back hlow (by rw [List.length_drop]; omega) hmoved
  have hclear := write_front (a := a.take words ++ a.take (a.length - words))
    (length_zeros (w := w) words) (by rw [List.length_append]; omega)
  rw [List.take_append_drop] at hup
  rw [List.drop_left' hlow] at hclear
  rw [shiftLeft, Limbs.shiftLeft, hwords]
  simp only [difference_eq hle, slice_front (Nat.sub_le _ _), hup, hclear, Checked.ok_bind]
  rw [shlCarry_eq _ (Nat.mod_lt _ w.bits_pos)]
  rfl

theorem length_shiftRight (a : Limbs w) (distance : Nat) :
    (Limbs.shiftRight a distance).length = a.length := by
  rw [Limbs.shiftRight]
  rw [length_shrWithin, List.length_append, List.length_drop, length_zeros]
  omega

theorem shiftRight_eq (a : Limbs w) (distance : Nat) :
    shiftRight a distance = .ok (Limbs.shiftRight a distance) := by
  generalize hwords : min (distance / w.bits) a.length = words
  have hle : words ≤ a.length := by omega
  have hmoved : (a.drop words).length = a.length - words := List.length_drop
  have hback : (a.drop (a.length - words)).length = words := by
    rw [List.length_drop]
    omega
  have hb : write (a.drop words ++ a.drop (a.length - words)) (a.length - words) a.length
      (zeros words) = .ok (a.drop words ++ zeros words) :=
    write_back hmoved (by omega) ((length_zeros words).trans hback.symm)
  rw [shiftRight, Limbs.shiftRight, hwords]
  simp only [difference_eq hle, slice_back hle, write_front hmoved (Nat.sub_le _ _),
    Checked.ok_bind]
  rw [hb, Checked.ok_bind, shrCarry_eq _ (Nat.mod_lt _ w.bits_pos)]
  rfl

/-- The word that holds position `bits` is masked, and those above it are
cleared. -/
theorem trimBits_split {low high : Limbs w} (x : Word w) {bits : Nat}
    (h : low.length = bits / w.bits) :
    Limbs.trimBits (low ++ x :: high) bits =
      low ++ (x &&& (((1 : Word w) <<< (bits % w.bits)) - 1)) :: zeros high.length := by
  induction low generalizing bits with
  | nil =>
      have hlt : bits < w.bits := (Nat.div_eq_zero_iff_lt w.bits_pos).mp h.symm
      rw [List.nil_append, List.nil_append, Limbs.trimBits, if_neg (by omega), Nat.mod_eq_of_lt hlt]
  | cons y ys ih =>
      rw [List.length_cons] at h
      have hle : w.bits ≤ bits := by
        by_contra hlt
        rw [Nat.div_eq_of_lt (by omega)] at h
        omega
      have hdiv : ys.length = (bits - w.bits) / w.bits := by
        rw [Nat.div_eq_sub_div w.bits_pos hle] at h
        omega
      rw [List.cons_append, Limbs.trimBits, if_pos hle, ih hdiv, ← Nat.mod_eq_sub_mod hle]
      rfl

theorem trimBits_eq {a : Limbs w} (h : a.length < sizeLimit) (bits : Nat) :
    trimBits a bits = .ok (Limbs.trimBits a bits) := by
  rw [trimBits]
  by_cases hfull : a.length ≤ bits / w.bits
  · have hwhole : w.bits * a.length ≤ bits := by
      have := Nat.mul_le_mul_left w.bits hfull
      have := Nat.mul_div_le bits w.bits
      omega
    rw [if_pos hfull, trimBits_of_lt (lt_of_lt_of_le (val_lt a)
      (Nat.pow_le_pow_right (by decide) hwhole))]
    rfl
  · generalize hk : bits / w.bits = k at hfull
    obtain ⟨low, x, high, rfl, hlow⟩ : ∃ low x high, a = low ++ x :: high ∧ low.length = k :=
      ⟨a.take k, a[k], a.drop (k + 1), by simp, by rw [List.length_take]; omega⟩
    have hlength : (low ++ x :: high).length = k + 1 + high.length := by
      rw [List.length_append, List.length_cons]
      omega
    rw [if_neg hfull, wordAt_append hlow, Checked.ok_bind, setWord_append hlow, Checked.ok_bind,
      checkedSize_eq (by omega), Checked.ok_bind, trimBits_split x (hlow.trans hk.symm)]
    generalize (x &&& _ : Word w) = y
    have hwrite : write (low ++ y :: high) (k + 1) (k + 1 + high.length) (zeros high.length) =
        .ok (low ++ y :: zeros high.length) := by
      rw [List.append_cons low y high, List.append_cons low y (zeros high.length)]
      exact write_back (by rw [List.length_append, List.length_singleton, hlow]) rfl
        (length_zeros _)
    have hlength' : (low ++ y :: high).length = k + 1 + high.length := by
      rw [List.length_append, List.length_cons]
      omega
    rw [hlength', Nat.add_sub_cancel_left, hwrite]

end CryptoPrimes.Trapping
