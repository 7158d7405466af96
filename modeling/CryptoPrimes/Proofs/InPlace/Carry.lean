import CryptoPrimes.InPlace.Carry
import CryptoPrimes.Proofs.InPlace.Masked
import CryptoPrimes.Proofs.Limbs.Product

/-!
# Carries are exact

A walk over the words of a target is known from its steps (`carryOver_eq`): it ends
with the words and the carry of the plain routine that takes the same steps.  What
the target held is not read, so writing a sum over its first operand is no
different from writing it anywhere else.

In values, the words of the result and what is carried out of them are the two
digits of the exact number in the radix of `n` words.  Digits are unique
(`eq_of_carry`), so an operation that takes back what another has added borrows
what the other has carried.
-/

namespace CryptoPrimes.Word

variable {w : Width}

theorem or_eq_zero_iff (x y : Word w) : x ||| y = 0 ↔ x = 0 ∧ y = 0 := by
  simp only [← toNat_inj, toNat_or, toNat_zero, Nat.or_eq_zero_iff]

theorem xor_eq_zero_iff (x y : Word w) : x ^^^ y = 0 ↔ x = y := by
  rw [← toNat_inj, toNat_xor, toNat_zero, Nat.xor_eq_zero_iff, toNat_inj]

theorem ofBool_eq_zero_iff (b : Bool) : (ofBool b : Word w) = 0 ↔ b = false := by
  rw [← toNat_inj, toNat_ofBool, toNat_zero, Bool.toNat_eq_zero]

end CryptoPrimes.Word

namespace CryptoPrimes.InPlace

open Limbs CryptoPrimes.Modular Trapping

variable {w : Width} {β γ : Type} {target a b c : Limbs w}

/-! ## The walk -/

/-- A walk is known from its steps: `result` starts with the new word of a step and
goes on with the carry that the step hands on. -/
theorem carryOver_eq (step : Word w → β → γ → Checked (Word w × γ))
    (next : Word w → β → γ → Word w × γ) (result : Limbs w → List β → γ → Limbs w × γ)
    (hstep : ∀ x item carry, step x item carry = .ok (next x item carry))
    (hnil : ∀ carry, result [] [] carry = ([], carry))
    (hcons : ∀ x item target items carry, result (x :: target) (item :: items) carry =
      ((next x item carry).1 :: (result target items (next x item carry).2).1,
        (result target items (next x item carry).2).2))
    {items : List β} (h : target.length = items.length) (carry : γ) :
    carryOver step target items carry = .ok (result target items carry) := by
  induction target generalizing items carry with
  | nil =>
      rw [List.length_eq_zero_iff.mp h.symm, hnil]
      rfl
  | cons x xs ih =>
      cases items with
      | nil => cases h
      | cons item items =>
          rw [carryOver, hstep, Checked.ok_bind, ih (Nat.succ.inj h), hcons]
          rfl

/-- A walk that reads its operands from pairs is the one over the first of them. -/
theorem carryOver_zip (step : Word w → Word w → γ → Checked (Word w × γ))
    (h : target.length = a.length) (hb : a.length = b.length) (carry : γ) :
    carryOver (fun _ pair carry => step pair.1 pair.2 carry) target (a.zip b) carry =
      carryOver step a b carry := by
  induction target generalizing a b carry with
  | nil =>
      obtain rfl := List.length_eq_zero_iff.mp h.symm
      obtain rfl := List.length_eq_zero_iff.mp hb.symm
      rfl
  | cons z zs ih =>
      obtain ⟨x, xs, rfl⟩ := List.exists_cons_of_length_eq_add_one h.symm
      obtain ⟨y, ys, rfl⟩ := List.exists_cons_of_length_eq_add_one hb.symm
      simp only [List.zip_cons_cons, carryOver, ih (Nat.succ.inj h) (Nat.succ.inj hb)]

/-- A walk that reads its operand from the other side is the one over the operand
itself. -/
theorem carryOver_other (step : Word w → γ → Checked (Word w × γ))
    (h : target.length = a.length) (carry : γ) :
    carryOver (fun _ x carry => step x carry) target a carry =
      carryOver (fun x _ carry => step x carry) a a carry := by
  induction target generalizing a carry with
  | nil =>
      obtain rfl := List.length_eq_zero_iff.mp h.symm
      rfl
  | cons z zs ih =>
      obtain ⟨x, xs, rfl⟩ := List.exists_cons_of_length_eq_add_one h.symm
      simp only [carryOver, ih (Nat.succ.inj h)]

/-- A walk over two operands ends with `result`, whether its target is the first of
them or another. -/
theorem carryOver_pairs (next : Word w → Word w → γ → Word w × γ)
    (result : Limbs w → Limbs w → γ → Limbs w × γ)
    (hnil : ∀ carry, result [] [] carry = ([], carry))
    (hcons : ∀ x y a b carry, result (x :: a) (y :: b) carry =
      ((next x y carry).1 :: (result a b (next x y carry).2).1,
        (result a b (next x y carry).2).2))
    (h : target.length = a.length) (hb : a.length = b.length) (carry : γ) :
    carryOver (fun _ pair carry => .ok (next pair.1 pair.2 carry)) target (a.zip b) carry =
        .ok (result a b carry) ∧
      carryOver (fun x y carry => .ok (next x y carry)) a b carry = .ok (result a b carry) := by
  have hassign := carryOver_eq (fun x y carry => .ok (next x y carry)) next result
    (fun _ _ _ => rfl) hnil hcons hb carry
  exact ⟨(carryOver_zip _ h hb carry).trans hassign, hassign⟩

/-- A walk over one operand ends with `result`, whether its target is the operand or
another. -/
theorem carryOver_single (next : Word w → γ → Word w × γ) (result : Limbs w → γ → Limbs w × γ)
    (hnil : ∀ carry, result [] carry = ([], carry))
    (hcons : ∀ x a carry, result (x :: a) carry =
      ((next x carry).1 :: (result a (next x carry).2).1, (result a (next x carry).2).2))
    (h : target.length = a.length) (carry : γ) :
    carryOver (fun _ x carry => .ok (next x carry)) target a carry = .ok (result a carry) ∧
      carryOver (fun x _ carry => .ok (next x carry)) a a carry = .ok (result a carry) := by
  have hassign := carryOver_eq (fun x (_ : Word w) carry => .ok (next x carry))
    (fun x _ => next x) (fun a _ => result a) (fun _ _ _ => rfl) hnil
    (fun x _ a _ carry => hcons x a carry) (rfl : a.length = a.length) carry
  exact ⟨(carryOver_other _ h carry).trans hassign, hassign⟩

/-! ## One result for every form -/

/-- The routine that fills a target, the one that overwrites its operand and the
plain one end with one result. -/
structure Alike {α : Type} (into assign plain : Checked α) (result : α) : Prop where
  into : into = .ok result
  assign : assign = .ok result
  plain : plain = .ok result

section

variable {n : Nat}

theorem add_alike (htarget : target.length = n) (ha : a.length = n) (hb : b.length = n) :
    Alike (addInto target a b) (addAssign a b) (Limbs.add n a b) (addCarry a b false) := by
  subst hb
  obtain ⟨hinto, hassign⟩ := carryOver_pairs Word.addCarry addCarry (fun _ => rfl)
    (fun _ _ _ _ _ => rfl) (htarget.trans ha.symm) ha false
  refine ⟨?_, ?_, Trapping.add_eq ha.symm ha⟩
  · rw [addInto, Checked.require_of ⟨htarget.trans ha.symm, ha⟩]
    exact hinto
  · rw [addAssign, Checked.require_of ha]
    exact hassign

theorem sub_alike (htarget : target.length = n) (ha : a.length = n) (hb : b.length = n) :
    Alike (subInto target a b) (subAssign a b) (Limbs.sub n a b) (subBorrow a b false) := by
  subst hb
  obtain ⟨hinto, hassign⟩ := carryOver_pairs Word.subBorrow subBorrow (fun _ => rfl)
    (fun _ _ _ _ _ => rfl) (htarget.trans ha.symm) ha false
  refine ⟨?_, ?_, Trapping.sub_eq ha.symm ha⟩
  · rw [subInto, Checked.require_of ⟨htarget.trans ha.symm, ha⟩]
    exact hinto
  · rw [subAssign, Checked.require_of ha]
    exact hassign

theorem addWord_alike (htarget : target.length = n) (ha : a.length = n) (x : Word w) :
    Alike (addWordInto target a x) (addWordAssign a x) (addWordTo n a x) (addWord a x) := by
  subst ha
  obtain ⟨hinto, hassign⟩ := carryOver_single sumStep addWord (fun _ => rfl)
    (fun _ _ _ => rfl) htarget x
  refine ⟨?_, hassign, ?_⟩
  · rw [addWordInto, Checked.require_of htarget]
    exact hinto
  · rw [addWordTo, Checked.require_of rfl]
    rfl

theorem subWord_alike (htarget : target.length = n) (ha : a.length = n) (x : Word w) :
    Alike (subWordInto target a x) (subWordAssign a x) (subWordTo n a x) (Limbs.subWord a x) := by
  subst ha
  obtain ⟨hinto, hassign⟩ := carryOver_single differenceStep Limbs.subWord (fun _ => rfl)
    (fun _ _ _ => rfl) htarget x
  refine ⟨?_, hassign, subWordTo_eq a x⟩
  rw [subWordInto, Checked.require_of htarget]
  exact hinto

theorem mulWordInto_eq (htarget : target.length = n) (ha : a.length = n) (x : Word w) :
    mulWordInto target a x = .ok (mulAdd (zeros n) a x 0) := by
  subst ha
  rw [mulWordInto, Checked.require_of htarget]
  exact carryOver_eq _ (fun _ y carry => Word.mulAdd y x 0 carry)
    (fun _ a carry => mulAdd (zeros a.length) a x carry)
    (fun _ y carry => mulAddWord_eq y x 0 carry) (fun _ => rfl) (fun _ _ _ _ _ => rfl) htarget 0

end

/-! ## Comparison -/

/-- What is gathered is none if the words are those that the same steps make. -/
theorem gatherOver_spec (step : β → γ → Word w × γ) (result : List β → γ → Limbs w × γ)
    (hnil : ∀ carry, result [] carry = ([], carry))
    (hcons : ∀ item items carry, result (item :: items) carry =
      ((step item carry).1 :: (result items (step item carry).2).1,
        (result items (step item carry).2).2))
    (items : List β) (h : c.length = items.length) (difference : Word w) (carry : γ) :
    (gatherOver step c items difference carry).2 = (result items carry).2 ∧
      ((gatherOver step c items difference carry).1 = 0 ↔
        difference = 0 ∧ (result items carry).1 = c) := by
  induction c generalizing items difference carry with
  | nil =>
      rw [List.length_eq_zero_iff.mp h.symm, hnil]
      exact ⟨rfl, by simp [gatherOver]⟩
  | cons z zs ih =>
      cases items with
      | nil => cases h
      | cons item items =>
          obtain ⟨hcarry, hzero⟩ := ih items (Nat.succ.inj h)
            (difference ||| ((step item carry).1 ^^^ z)) (step item carry).2
          rw [hcons, gatherOver]
          refine ⟨hcarry, hzero.trans ?_⟩
          rw [Word.or_eq_zero_iff, Word.xor_eq_zero_iff, List.cons.injEq, and_assoc]

theorem isSum_eq (h : c.length = a.length) (hb : a.length = b.length) :
    ∃ same, isSum c a b = .ok same ∧ Limbs.isSum c a b = .ok same ∧
      (same = true ↔ addCarry a b false = (c, false)) := by
  obtain ⟨hcarry, hzero⟩ := gatherOver_spec
    (fun pair carry => Word.addCarry pair.1 pair.2 carry)
    (fun pairs carry => addCarry (pairs.map Prod.fst) (pairs.map Prod.snd) carry)
    (fun _ => rfl) (fun _ _ _ => by rw [List.map_cons, List.map_cons, addCarry])
    (c := c) (a.zip b) (by rw [List.length_zip]; omega) 0 false
  rw [List.map_fst_zip hb.le, List.map_snd_zip hb.ge] at hcarry hzero
  generalize hgathered : gatherOver (fun pair carry => Word.addCarry pair.1 pair.2 carry) c
    (a.zip b) 0 false = gathered at hcarry hzero
  have hsame : (gathered.1 ||| Word.ofBool gathered.2 == 0) =
      (addCarry a b false == (c, false)) := by
    rw [Bool.eq_iff_iff, beq_iff_eq, beq_iff_eq, Word.or_eq_zero_iff, Word.ofBool_eq_zero_iff,
      hcarry, hzero, Prod.ext_iff, eq_self_iff_true, true_and]
  refine ⟨addCarry a b false == (c, false), ?_, ?_, beq_iff_eq⟩
  · rw [isSum, Checked.require_of ⟨h, hb⟩, Checked.ok_bind, hgathered, ← hsame]
    rfl
  · rw [Limbs.isSum, Checked.require_of ⟨h, hb⟩]
    rfl

theorem isSumWord_eq (h : c.length = a.length) (x : Word w) :
    ∃ same, isSumWord c a x = .ok same ∧ Limbs.isSumWord c a x = .ok same ∧
      (same = true ↔ addWord a x = (c, 0)) := by
  obtain ⟨hcarry, hzero⟩ := gatherOver_spec sumStep addWord (fun _ => rfl)
    (fun _ _ _ => rfl) a h 0 x
  generalize hgathered : gatherOver sumStep c a 0 x = gathered at hcarry hzero
  have hsame : (gathered.1 ||| gathered.2 == 0) = (addWord a x == (c, 0)) := by
    rw [Bool.eq_iff_iff, beq_iff_eq, beq_iff_eq, Word.or_eq_zero_iff, hcarry, hzero, Prod.ext_iff,
      eq_self_iff_true, true_and]
  refine ⟨addWord a x == (c, 0), ?_, ?_, beq_iff_eq⟩
  · rw [isSumWord, Checked.require_of h, Checked.ok_bind, hgathered, ← hsame]
    rfl
  · rw [Limbs.isSumWord, Checked.require_of h]
    rfl

/-! ## Values -/

/-- `c` and the `carry` out of its `n` words are the number `x`. -/
structure Carried (n x : Nat) (c : Limbs w) (carry : Nat) : Prop where
  length : c.length = n
  value : val c + carry * 2 ^ (w.bits * n) = x

/-- `c` is `x - y`, with `borrow` taken from beyond its `n` words. -/
structure Borrowed (n x y : Nat) (c : Limbs w) (borrow : Nat) : Prop where
  length : c.length = n
  value : val c + y = x + borrow * 2 ^ (w.bits * n)

section

variable {n x carry borrow : Nat} {d : Limbs w}

/-- Digits are unique: words that differ by carries alone are the same. -/
theorem eq_of_carry (carry borrow : Nat) (hc : c.length = n) (hd : d.length = n)
    (h : val c + carry * 2 ^ (w.bits * n) = val d + borrow * 2 ^ (w.bits * n)) :
    c = d ∧ carry = borrow := by
  have hclt := val_lt c
  have hdlt := val_lt d
  rw [hc] at hclt
  rw [hd] at hdlt
  rw [Nat.mul_comm carry, Nat.mul_comm borrow] at h
  obtain ⟨hcarry, hval⟩ := digits_unique hclt hdlt h
  exact ⟨val_inj (hc.trans hd.symm) hval, hcarry⟩

/-- Taking back what has been added borrows what has been carried. -/
theorem borrow_undoes_carry (hc : Carried n (val a + x) c carry)
    (hd : Borrowed n (val c) x d borrow) (ha : a.length = n) : d = a ∧ borrow = carry := by
  have hsum := hc.value
  have hdiff := hd.value
  obtain ⟨hwords, hcarry⟩ := eq_of_carry carry borrow hd.length ha (by omega)
  exact ⟨hwords, hcarry.symm⟩

/-- Adding again what has been taken away carries what has been borrowed. -/
theorem carry_undoes_borrow (hd : Borrowed n (val a) x d borrow)
    (hc : Carried n (val d + x) c carry) (ha : a.length = n) : c = a ∧ carry = borrow := by
  have hsum := hc.value
  have hdiff := hd.value
  exact eq_of_carry carry borrow hc.length ha (by omega)

theorem Carried.eq_iff (hd : Carried n x d carry) (hc : c.length = n) :
    d = c ∧ carry = 0 ↔ x = val c := by
  have hvalue := hd.value
  constructor
  · rintro ⟨rfl, rfl⟩
    omega
  · intro hx
    exact eq_of_carry carry 0 hd.length hc (by omega)

end

section

variable {n : Nat}

theorem carried_addCarry (ha : a.length = n) (hb : b.length = n) :
    Carried n (val a + val b) (addCarry a b false).1 (addCarry a b false).2.toNat where
  length := (length_addCarry (ha.trans hb.symm) false).trans ha
  value := by
    have hvalue := val_addCarry (ha.trans hb.symm) false
    rwa [ha, Bool.toNat_false, Nat.add_zero, Nat.mul_comm] at hvalue

theorem borrowed_subBorrow (ha : a.length = n) (hb : b.length = n) :
    Borrowed n (val a) (val b) (subBorrow a b false).1 (subBorrow a b false).2.toNat where
  length := (length_subBorrow (ha.trans hb.symm) false).trans ha
  value := by
    have hvalue := val_subBorrow (ha.trans hb.symm) false
    rwa [ha, Bool.toNat_false, Nat.add_zero, Nat.mul_comm (2 ^ _)] at hvalue

theorem carried_addWord (ha : a.length = n) (x : Word w) :
    Carried n (val a + x.toNat) (addWord a x).1 (addWord a x).2.toNat where
  length := (length_addWord a x).trans ha
  value := by
    have hvalue := val_addWord a x
    rwa [ha, Nat.mul_comm] at hvalue

theorem borrowed_subWord (ha : a.length = n) (x : Word w) :
    Borrowed n (val a) x.toNat (Limbs.subWord a x).1 (Limbs.subWord a x).2.toNat where
  length := (length_subWord a x).trans ha
  value := by
    have hvalue := val_subWord a x
    rwa [ha, Nat.mul_comm (2 ^ _)] at hvalue

theorem carried_mulAdd (hc : c.length = n) (ha : a.length = n) (x : Word w) :
    Carried n (val c + val a * x.toNat) (mulAdd c a x 0).1 (mulAdd c a x 0).2.toNat where
  length := (length_mulAdd (hc.trans ha.symm) x 0).trans hc
  value := by
    have hvalue := val_mulAdd (hc.trans ha.symm) x 0
    rwa [hc, Word.toNat_zero, Nat.add_zero, Nat.mul_comm (2 ^ _)] at hvalue

theorem borrowed_mulSub (hc : c.length = n) (ha : a.length = n) (x : Word w) :
    Borrowed n (val c) (val a * x.toNat) (mulSub c a x 0).1 (mulSub c a x 0).2.toNat where
  length := (length_mulSub (hc.trans ha.symm) x 0).trans hc
  value := by
    have hvalue := val_mulSub (hc.trans ha.symm) x 0
    rwa [hc, Word.toNat_zero, Nat.add_zero, Nat.mul_comm (2 ^ _)] at hvalue

/-- A carry out of a sum of two numbers below `B` is at most one. -/
theorem carry_le_one {B c x y carry : Nat} (hsum : c + carry * B = x + y) (hx : x < B)
    (hy : y < B) : carry ≤ 1 := by
  by_contra hmore
  have := Nat.mul_le_mul_right B (Nat.lt_of_not_le hmore)
  omega

theorem toNat_lt_radix (x : Word w) (hn : 0 < n) : x.toNat < 2 ^ (w.bits * n) :=
  x.toNat_lt.trans_le (Nat.pow_le_pow_right (by decide) (Nat.le_mul_of_pos_right _ hn))

/-- What a word can hand on: no words hand on the word `x` they are given, and any
words at most one bit of it. -/
structure HandsOn (n : Nat) (x carry : Word w) : Prop where
  none : n = 0 → carry = x
  bit : 0 < n → carry.toNat ≤ 1

theorem handsOn_addWord (ha : a.length = n) (x : Word w) : HandsOn n x (addWord a x).2 where
  none hn := by
    rw [List.length_eq_zero_iff.mp (ha.trans hn)]
    rfl
  bit hn := carry_le_one (carried_addWord ha x).value (ha ▸ val_lt a) (toNat_lt_radix x hn)

theorem handsOn_subWord (ha : a.length = n) (x : Word w) :
    HandsOn n x (Limbs.subWord a x).2 where
  none hn := by
    rw [List.length_eq_zero_iff.mp (ha.trans hn)]
    rfl
  bit hn := by
    have hdiff := borrowed_subWord ha x
    have hlt := val_lt (Limbs.subWord a x).1
    rw [hdiff.length] at hlt
    exact carry_le_one hdiff.value.symm hlt (toNat_lt_radix x hn)

/-! ## Back again -/

theorem eq_of_toNat_eq : ∀ {p q : Bool}, p.toNat = q.toNat → p = q := by decide

theorem subBorrow_addCarry (ha : a.length = n) (hb : b.length = n) :
    subBorrow (addCarry a b false).1 b false = (a, (addCarry a b false).2) := by
  have hsum := carried_addCarry ha hb
  obtain ⟨hwords, hborrow⟩ := borrow_undoes_carry hsum (borrowed_subBorrow hsum.length hb) ha
  exact Prod.ext hwords (eq_of_toNat_eq hborrow)

theorem addCarry_subBorrow (ha : a.length = n) (hb : b.length = n) :
    addCarry (subBorrow a b false).1 b false = (a, (subBorrow a b false).2) := by
  have hdiff := borrowed_subBorrow ha hb
  obtain ⟨hwords, hcarry⟩ := carry_undoes_borrow hdiff (carried_addCarry hdiff.length hb) ha
  exact Prod.ext hwords (eq_of_toNat_eq hcarry)

theorem subWord_addWord (ha : a.length = n) (x : Word w) :
    Limbs.subWord (addWord a x).1 x = (a, (addWord a x).2) := by
  have hsum := carried_addWord ha x
  obtain ⟨hwords, hborrow⟩ := borrow_undoes_carry hsum (borrowed_subWord hsum.length x) ha
  exact Prod.ext hwords (Word.ext hborrow)

theorem addWord_subWord (ha : a.length = n) (x : Word w) :
    addWord (Limbs.subWord a x).1 x = (a, (Limbs.subWord a x).2) := by
  have hdiff := borrowed_subWord ha x
  obtain ⟨hwords, hcarry⟩ := carry_undoes_borrow hdiff (carried_addWord hdiff.length x) ha
  exact Prod.ext hwords (Word.ext hcarry)

theorem mulSub_mulAdd (hc : c.length = n) (ha : a.length = n) (x : Word w) :
    mulSub (mulAdd c a x 0).1 a x 0 = (c, (mulAdd c a x 0).2) := by
  have hsum := carried_mulAdd hc ha x
  obtain ⟨hwords, hborrow⟩ := borrow_undoes_carry hsum (borrowed_mulSub hsum.length ha x) hc
  exact Prod.ext hwords (Word.ext hborrow)

theorem mulAdd_mulSub (hc : c.length = n) (ha : a.length = n) (x : Word w) :
    mulAdd (mulSub c a x 0).1 a x 0 = (c, (mulSub c a x 0).2) := by
  have hdiff := borrowed_mulSub hc ha x
  obtain ⟨hwords, hcarry⟩ := carry_undoes_borrow hdiff (carried_mulAdd hdiff.length ha x) hc
  exact Prod.ext hwords (Word.ext hcarry)

end

/-! ## What a caller gets -/

/-- What is promised of sums, differences and products with a word in `n` words.
The words that are written hold anything. -/
structure ExactCarries (w : Width) (n : Nat) : Prop where
  sum : ∀ target a b : Limbs w, target.length = n → a.length = n → b.length = n →
    ∃ c carry,
      Alike (addInto target a b) (addAssign a b) (Limbs.add n a b) (c, carry) ∧
      Carried n (val a + val b) c carry.toNat ∧
      Alike (subInto target c b) (subAssign c b) (Limbs.sub n c b) (a, carry)
  difference : ∀ target a b : Limbs w, target.length = n → a.length = n → b.length = n →
    ∃ c borrow,
      Alike (subInto target a b) (subAssign a b) (Limbs.sub n a b) (c, borrow) ∧
      Borrowed n (val a) (val b) c borrow.toNat ∧
      Alike (addInto target c b) (addAssign c b) (Limbs.add n c b) (a, borrow)
  sumWord : ∀ (target a : Limbs w) (x : Word w), target.length = n → a.length = n →
    ∃ c carry,
      Alike (addWordInto target a x) (addWordAssign a x) (addWordTo n a x) (c, carry) ∧
      Carried n (val a + x.toNat) c carry.toNat ∧ HandsOn n x carry ∧
      Alike (subWordInto target c x) (subWordAssign c x) (subWordTo n c x) (a, carry)
  differenceWord : ∀ (target a : Limbs w) (x : Word w), target.length = n → a.length = n →
    ∃ c borrow,
      Alike (subWordInto target a x) (subWordAssign a x) (subWordTo n a x) (c, borrow) ∧
      Borrowed n (val a) x.toNat c borrow.toNat ∧ HandsOn n x borrow ∧
      Alike (addWordInto target c x) (addWordAssign c x) (addWordTo n c x) (a, borrow)
  product : ∀ (target a : Limbs w) (x : Word w), target.length = n → a.length = n →
    ∃ c high, mulWordInto target a x = .ok (c, high) ∧ mulWordTo n a x = .ok (c, high) ∧
      Carried n (val a * x.toNat) c high.toNat
  /-- No double word and no borrow overflows on the way. -/
  addProduct : ∀ (c a : Limbs w) (x : Word w), c.length = n → a.length = n →
    ∃ d carry, Trapping.addMulWord c a x = .ok (d, carry) ∧
      Limbs.addMulWord c a x = .ok (d, carry) ∧
      Carried n (val c + val a * x.toNat) d carry.toNat ∧
      Trapping.subMulWord d a x = .ok (c, carry)
  subProduct : ∀ (c a : Limbs w) (x : Word w), c.length = n → a.length = n →
    ∃ d borrow, Trapping.subMulWord c a x = .ok (d, borrow) ∧
      Limbs.subMulWord c a x = .ok (d, borrow) ∧
      Borrowed n (val c) (val a * x.toNat) d borrow.toNat ∧
      Trapping.addMulWord d a x = .ok (c, borrow)
  isSum : ∀ c a b : Limbs w, c.length = n → a.length = n → b.length = n →
    ∃ same, InPlace.isSum c a b = .ok same ∧ Limbs.isSum c a b = .ok same ∧
      (same = true ↔ val a + val b = val c)
  isSumWord : ∀ (c a : Limbs w) (x : Word w), c.length = n → a.length = n →
    ∃ same, InPlace.isSumWord c a x = .ok same ∧ Limbs.isSumWord c a x = .ok same ∧
      (same = true ↔ val a + x.toNat = val c)

/-- Sums, differences and products with a word are exact, in any number of words:
what the words cannot hold is carried, and what they lack is borrowed. -/
theorem carry_arithmetic_exact (w : Width) (n : Nat) : ExactCarries w n where
  sum target a b htarget ha hb := by
    have hsum := carried_addCarry ha hb
    have hundo := sub_alike htarget hsum.length hb
    rw [subBorrow_addCarry ha hb] at hundo
    exact ⟨_, _, add_alike htarget ha hb, hsum, hundo⟩
  difference target a b htarget ha hb := by
    have hdiff := borrowed_subBorrow ha hb
    have hundo := add_alike htarget hdiff.length hb
    rw [addCarry_subBorrow ha hb] at hundo
    exact ⟨_, _, sub_alike htarget ha hb, hdiff, hundo⟩
  sumWord target a x htarget ha := by
    have hsum := carried_addWord ha x
    have hundo := subWord_alike htarget hsum.length x
    rw [subWord_addWord ha x] at hundo
    exact ⟨_, _, addWord_alike htarget ha x, hsum, handsOn_addWord ha x, hundo⟩
  differenceWord target a x htarget ha := by
    have hdiff := borrowed_subWord ha x
    have hundo := addWord_alike htarget hdiff.length x
    rw [addWord_subWord ha x] at hundo
    exact ⟨_, _, subWord_alike htarget ha x, hdiff, handsOn_subWord ha x, hundo⟩
  product target a x htarget ha := by
    have hproduct := carried_mulAdd (length_zeros n) ha x
    rw [val_zeros, Nat.zero_add] at hproduct
    refine ⟨_, _, mulWordInto_eq htarget ha x, ?_, hproduct⟩
    rw [mulWordTo, Checked.require_of ha.symm, ha]
    rfl
  addProduct c a x hc ha := by
    have hsum := carried_mulAdd hc ha x
    have hundo := Trapping.subMulWord_eq (hsum.length.trans ha.symm) x
    rw [mulSub_mulAdd hc ha x] at hundo
    refine ⟨_, _, Trapping.addMulWord_eq (hc.trans ha.symm) x, ?_, hsum, hundo⟩
    rw [Limbs.addMulWord, Checked.require_of (hc.trans ha.symm)]
    rfl
  subProduct c a x hc ha := by
    have hdiff := borrowed_mulSub hc ha x
    have hundo := Trapping.addMulWord_eq (hdiff.length.trans ha.symm) x
    rw [mulAdd_mulSub hc ha x] at hundo
    refine ⟨_, _, Trapping.subMulWord_eq (hc.trans ha.symm) x, ?_, hdiff, hundo⟩
    rw [Limbs.subMulWord, Checked.require_of (hc.trans ha.symm)]
    rfl
  isSum c a b hc ha hb := by
    obtain ⟨same, hinPlace, hplain, hsame⟩ := isSum_eq (hc.trans ha.symm) (ha.trans hb.symm)
    refine ⟨same, hinPlace, hplain, hsame.trans ?_⟩
    rw [Prod.ext_iff, ← (carried_addCarry ha hb).eq_iff hc, Bool.toNat_eq_zero]
  isSumWord c a x hc ha := by
    obtain ⟨same, hinPlace, hplain, hsame⟩ := isSumWord_eq (hc.trans ha.symm) x
    refine ⟨same, hinPlace, hplain, hsame.trans ?_⟩
    rw [Prod.ext_iff, ← (carried_addWord ha x).eq_iff hc, ← Word.toNat_inj, Word.toNat_zero]

/-- Full words carry one bit when they are doubled and borrow a full word when their
multiple is taken from zero; no words hand on the word they are given. -/
theorem carry_arithmetic_exact_full_words :
    let top : Word .w64 := 0xffffffffffffffff
    addInto [7, 7] [top, top] [top, top] = .ok ([0xfffffffffffffffe, top], true) ∧
      subAssign [0xfffffffffffffffe, top] [top, top] = .ok ([top, top], true) ∧
      Trapping.subMulWord [0, 0] [top, top] top = .ok ([top, 0], top) ∧
      subWordAssign [] top = .ok ([], top) := by
  intro top
  obtain ⟨c, carry, hadd, hsum, hundo⟩ :=
    (carry_arithmetic_exact .w64 2).sum [7, 7] [top, top] [top, top] rfl rfl rfl
  obtain ⟨rfl, hcarry⟩ := eq_of_carry (d := [0xfffffffffffffffe, top]) _ 1 hsum.length
    rfl (hsum.value.trans (by decide))
  obtain rfl := Bool.toNat_eq_one.mp hcarry
  obtain ⟨d, borrow, hsub, -, hdiff, -⟩ :=
    (carry_arithmetic_exact .w64 2).subProduct [0, 0] [top, top] top rfl rfl
  have hall : val [top, top] * top.toNat + val [top, 0] =
      val [(0 : Word .w64), 0] + top.toNat * 2 ^ (Width.w64.bits * 2) := by decide
  have hvalue := hdiff.value
  obtain ⟨rfl, hborrow⟩ := eq_of_carry (d := [top, 0]) top.toNat borrow.toNat
    hdiff.length rfl (by omega)
  obtain rfl := Word.ext hborrow
  obtain ⟨e, last, hword, hnone, hlast, -⟩ :=
    (carry_arithmetic_exact .w64 0).differenceWord [] [] top rfl rfl
  obtain rfl := List.length_eq_zero_iff.mp hnone.length
  obtain rfl := hlast.none rfl
  exact ⟨hadd.into, hundo.assign, hsub, hword.assign⟩

end CryptoPrimes.InPlace
