import CryptoPrimes.InPlace.Modular
import CryptoPrimes.Proofs.InPlace.Follows

/-!
# Modular arithmetic in place follows its form on values

A buffer is read only behind the step that fills it: the accumulator of a product
is cleared, a constant starts from cleared words, a difference is copied over all
of its words.  So whatever the words of a result or of a buffer hold at the
start, the step that comes first is one that the form on values takes as well.

What is kept through the routines is that a result has the words of the modulus
(`Same`); that is all a later step asks of the words it overwrites.
-/

namespace CryptoPrimes.InPlace

open Limbs CryptoPrimes.Modular Trapping

variable {w : Width} {a b m r : Limbs w} {m0 : Word w} {n : Nat}

/-- One number, in `n` words. -/
def Same (n : Nat) (x y : Limbs w) : Prop := x = y ∧ x.length = n

/-! ## Checked steps -/

theorem store_eq {target source : Limbs w} (h : source.length = target.length) :
    store target source = .ok source := write_whole rfl h

theorem length_part {buffer : Limbs w} {k i : Nat} (h : buffer.length = k * n) (hi : i < k) :
    (buffer.part n i).length = n := by
  have hroom : (i + 1) * n ≤ k * n := Nat.mul_le_mul_right n hi
  rw [Nat.add_mul, Nat.one_mul] at hroom
  unfold part
  rw [List.length_take, List.length_drop]
  omega

theorem sub_eq (target a b : Limbs w) : sub target a b = Limbs.sub target.length a b := by
  unfold sub
  by_cases h : target.length = a.length ∧ a.length = b.length
  · have hlength : (subBorrow a b false).1.length = target.length :=
      (length_subBorrow h.2 false).trans h.1.symm
    rw [Trapping.sub_eq h.1 h.2, Checked.ok_bind, store_eq hlength]
    rfl
  · rw [Limbs.sub, require, if_neg h]
    rfl

theorem subWord_eq {target a : Limbs w} (h : target.length = a.length) (x : Word w) :
    subWord target a x = .ok (Limbs.subWord a x).1 := by
  have hlength : (Limbs.subWord a x).1.length = target.length := (length_subWord a x).trans h.symm
  rw [subWord, h, Trapping.subWordTo_eq, Checked.ok_bind, store_eq hlength]

/-- A check that is passed holds behind it. -/
theorem follows_require {p : Prop} [Decidable p] (fault : Fault) :
    Checked.Follows (fun _ _ => p) (require p fault) (require p fault) := by
  unfold require
  split
  · exact .result ‹p›
  · exact .fault _ fault

/-- A size is the number it is computed from. -/
theorem follows_checkedSize (n : Nat) :
    Checked.Follows (fun x y => x = n ∧ y = n ∧ n < sizeLimit) (checkedSize n) (checkedSize n) := by
  unfold checkedSize
  split
  · exact .result ⟨rfl, rfl, ‹_›⟩
  · exact .fault _ _

theorem follows_slice (first last : Nat) :
    Checked.Follows (Same (last - first)) (slice a first last) (slice a first last) := by
  unfold slice
  refine (follows_require _).bind fun _ _ h => .result ⟨rfl, ?_⟩
  rw [List.length_drop, List.length_take, Nat.min_eq_left h.2]

theorem follows_setWord (i : Nat) (x : Word w) (ha : a.length = n) :
    Checked.Follows (Same n) (setWord a i x) (setWord a i x) := by
  unfold setWord
  exact .same_bind fun _ => .result ⟨rfl, List.length_set.trans ha⟩

theorem write_outside {target source : Limbs w} {first last : Nat}
    (hrange : ¬ (first ≤ last ∧ last ≤ target.length)) :
    write target first last source = .error .outOfRange := by
  rw [write, require, if_neg hrange]
  rfl

theorem write_mismatch {target source : Limbs w} {first last : Nat}
    (hrange : first ≤ last ∧ last ≤ target.length) (hsource : source.length ≠ last - first) :
    write target first last source = .error .lengthMismatch := by
  rw [write, Checked.require_of hrange, Checked.ok_bind, require, if_neg hsource]
  rfl

/-- Copying keeps the length of what is copied over. -/
theorem follows_write {target : Limbs w} (first last : Nat) (source : Limbs w)
    (h : target.length = n) :
    Checked.Follows (Same n) (write target first last source)
      (write target first last source) := by
  unfold write
  refine (follows_require _).bind fun _ _ hrange => ?_
  refine (follows_require _).bind fun _ _ hsource => .result ⟨rfl, ?_⟩
  rw [List.length_append, List.length_append, List.length_take, List.length_drop]
  omega

/-- A difference has the length of what it is copied over. -/
theorem follows_sub {target : Limbs w} (h : target.length = n) (b : Limbs w) :
    Checked.Follows (fun d d' => d = d' ∧ d.1.length = n) (sub target a b) (Limbs.sub n a b) := by
  rw [sub_eq, h]
  unfold Limbs.sub
  refine (follows_require _).bind fun _ _ hlength => .result ⟨rfl, ?_⟩
  exact (length_subBorrow hlength.2 false).trans hlength.1.symm

theorem follows_assignIf (bit : Word w) (hr : r.length = n) :
    Checked.Follows (Same n) (assignIf bit r a) (assignIf bit r a) := by
  unfold assignIf
  refine (follows_require _).bind fun _ _ h => .result ⟨rfl, ?_⟩
  rw [choose, List.length_zipWith, ← h, Nat.min_self, hr]

/-! ## The constants -/

theorem cleared_set_one (r : Limbs w) : (cleared r).set 0 1 = one r.length := by
  cases r with
  | nil => rfl
  | cons x xs =>
      show 1 :: cleared xs = 1 :: zeros xs.length
      rw [cleared_eq_zeros]

theorem follows_doublings (count : Nat) (hr : r.length = m.length) :
    Checked.Follows (Same m.length) (iterate (doubleModChecked · m) count r)
      (iterate (doubleModChecked · m) count r) := by
  obtain ⟨hrun, hlength⟩ := iterate_doubleMod count hr
  rw [hrun]
  exact .result ⟨rfl, hlength⟩

theorem follows_radixMod (hr : r.length = m.length) :
    Checked.Follows (Same m.length) (radixMod r m) (Trapping.radixMod m) := by
  unfold radixMod Trapping.radixMod
  rw [Checked.require_of hr, Checked.ok_bind, cleared_set_one, hr]
  exact .same_bind fun count => follows_doublings count (length_one m.length)

theorem follows_radixSquareMod (hr : r.length = m.length) :
    Checked.Follows (Same m.length) (radixSquareMod r m) (Trapping.radixSquareMod m) := by
  unfold radixSquareMod Trapping.radixSquareMod
  by_cases hbits : w.bits * m.length < sizeLimit
  · rw [checkedSize_eq hbits, Checked.ok_bind]
    refine (follows_radixMod hr).bind ?_
    rintro one _ ⟨rfl, hone⟩
    rw [Checked.ok_bind]
    exact follows_doublings _ hone
  · have hsize : checkedSize (w.bits * m.length) = .error .sizeOverflow := if_neg hbits
    rw [radixMod, Checked.require_of hr, Checked.ok_bind, hsize]
    exact .fault _ _

/-! ## The product -/

theorem follows_montFinish (hr : r.length = m.length) (t : Limbs w) :
    Checked.Follows (Same m.length) (montFinish r m t) (Trapping.montFinish m t) := by
  unfold montFinish Trapping.montFinish
  refine .same_bind fun low => (follows_sub hr m).bind ?_
  rintro ⟨d, borrow⟩ _ ⟨rfl, hd⟩
  exact .same_bind fun top => follows_assignIf _ hd

theorem follows_montMul (hr : r.length = m.length) :
    Work.Follows (montMulDepth m.length) (Same m.length) (montMul r a b m m0)
      (Trapping.montMul a b m m0) := by
  unfold montMul Trapping.montMul
  have hargs : (r.length = m.length ∧ a.length = m.length ∧ b.length = m.length) ↔
      (a.length = m.length ∧ b.length = m.length) := and_iff_right hr
  simp only [hargs]
  refine .same_bind fun _ => .same_bind fun _ => .lift_bind (follows_checkedSize _) ?_
  rintro _ _ ⟨rfl, rfl, -⟩
  refine @Work.Follows.withBuffer _ _ _ _ 0 _ _ _ fun t t' ht ht' => ?_
  rw [cleared_eq_zeros, cleared_eq_zeros, ht, ht']
  refine .same_bind fun t => .lift_bind (follows_montFinish hr t) fun x y hxy => ?_
  exact Work.follows_pure hxy

/-! ## Products and powers -/

theorem follows_mulMod (hr : r.length = m.length) :
    Work.Follows (mulModDepth m.length) (Same m.length) (mulMod r a b m)
      (Trapping.mulMod a b m) := by
  have hdepth : mulModDepth m.length = m.length + (m.length + montMulDepth m.length) := by
    unfold mulModDepth
    omega
  unfold mulMod Trapping.mulMod
  rw [hdepth]
  refine .same_bind fun m0 => ?_
  refine .withBuffer fun r2 _ hr2 _ => .withBuffer fun t _ ht _ => ?_
  refine .lift_bind (follows_radixSquareMod hr2) ?_
  rintro r2 _ ⟨rfl, -⟩
  refine (follows_montMul ht).bind ?_
  rintro t _ ⟨rfl, -⟩
  refine (follows_montMul hr).bind fun x y hxy => ?_
  exact Work.follows_pure hxy

/-- The ladder overwrites its two numbers in turn. -/
theorem follows_ladder (bits : List Bool) {tmp : Limbs w} (hr : r.length = m.length)
    (htmp : tmp.length = m.length) (tmp' : Limbs w) :
    Work.Follows (montMulDepth m.length)
      (fun p p' => Same m.length p.1 p'.1 ∧ p.2.length = m.length)
      (ladder a m m0 bits r tmp) (Trapping.ladder a m m0 bits r tmp') := by
  induction bits generalizing r tmp tmp' with
  | nil => exact Work.follows_pure ⟨⟨rfl, hr⟩, htmp⟩
  | cons bit bits ih =>
      unfold ladder Trapping.ladder
      refine (follows_montMul htmp).bind ?_
      rintro square _ ⟨rfl, hsquare⟩
      refine (follows_montMul hr).bind ?_
      rintro product _ ⟨rfl, hproduct⟩
      refine .lift_bind (follows_assignIf _ hproduct) ?_
      rintro r _ ⟨rfl, hr⟩
      exact ih hr hsquare square

theorem follows_powerMont {e one : Limbs w} (hr : r.length = m.length) :
    Work.Follows (powerMontDepth m.length) (Same m.length) (powerMont r a e m m0 one)
      (Trapping.powerMont a e m m0 one) := by
  unfold powerMont Trapping.powerMont
  refine .withBuffer fun tmp tmp' htmp _ => ?_
  by_cases hone : one.length = m.length
  · rw [store_eq (hone.trans hr.symm), Checked.require_of hone, Work.ok_bind]
    exact (follows_ladder _ hone htmp tmp').imp fun _ _ h => h.1
  · have hstore : store r one = .error .lengthMismatch :=
      write_mismatch ⟨Nat.zero_le _, Nat.le_refl _⟩ (by rwa [hr])
    rw [hstore, require, if_neg hone]
    exact (Work.follows_lift (.fault (fun _ _ => False) _)).bind fun _ _ h => h.elim

theorem follows_powerMod {e : Limbs w} (hr : r.length = m.length) :
    Work.Follows (powerModDepth m.length) (Same m.length) (powerMod r a e m)
      (Trapping.powerMod a e m) := by
  have hle : montMulDepth m.length ≤ powerMontDepth m.length := Nat.le_add_left _ _
  unfold powerMod Trapping.powerMod
  refine .same_bind fun _ => .same_bind fun m0 => .withBuffer fun buffer _ hbuffer _ => ?_
  refine .lift_bind (follows_radixSquareMod (length_part hbuffer (by decide))) ?_
  rintro r2 _ ⟨rfl, -⟩
  rw [cleared_eq_zeros, length_part hbuffer (by decide)]
  refine .lift_bind (follows_write _ _ _ (length_zeros _)) ?_
  rintro acc _ ⟨rfl, hacc⟩
  refine ((follows_montMul (length_part hbuffer (by decide))).mono hle).bind ?_
  rintro base _ ⟨rfl, -⟩
  refine .lift_bind (follows_radixMod (length_part hbuffer (by decide))) ?_
  rintro one _ ⟨rfl, hone⟩
  refine (follows_powerMont hacc).bind ?_
  rintro acc _ ⟨rfl, -⟩
  rw [cleared_eq_zeros, hone]
  refine .same_bind fun unit => ?_
  refine ((follows_montMul hr).mono hle).bind fun x y hxy => ?_
  exact Work.follows_pure hxy

end CryptoPrimes.InPlace
