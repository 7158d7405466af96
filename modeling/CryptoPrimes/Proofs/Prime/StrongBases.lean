import CryptoPrimes.Proofs.Prime.SignedRoots
import CryptoPrimes.Proofs.Prime.Strong

/-!
# How many bases a composite number is strong to

An odd composite number above nine is strong to at most one in four of the bases that a
round can draw (`four_mul_card_strongBases_le`).

The bases to which it is strong are units, and all of them lie in one group: at the last
level of squaring at which minus one occurs, the power of each is one or minus one
(`exists_level`).  That group holds at most a quarter of the units, of which there are
fewer than `n`, and two of its members are never drawn, one and `n - 1`
(`card_strongBases_add_two_le`).
-/

namespace CryptoPrimes.Prime

variable {n twos odd : Nat} (hsplit : 2 ^ twos * odd = n - 1) (hpart : odd % 2 = 1)
  (hpos : 0 < twos)

/-- The bases from two to `n - 2` to which `n` is strong. -/
def strongBases (n twos odd : Nat) : Finset Nat :=
  {b ∈ Finset.Icc 2 (n - 2) | IsStrongTo n b twos odd}

/-- What a base to which `n` is strong is among the units. -/
def IsStrongUnit (x : (ZMod n)ˣ) (twos odd : Nat) : Prop :=
  x ^ odd = 1 ∨ ∃ j < twos, x ^ (2 ^ j * odd) = -1

include hpart in
/-- A base to which a number is strong is a unit. -/
theorem exists_unit_of_isStrongTo (hn : 0 < n) {b : Nat} (h : IsStrongTo n b twos odd) :
    ∃ x : (ZMod n)ˣ, (x : ZMod n) = b ∧ IsStrongUnit x twos odd := by
  have hne : odd ≠ 0 := by omega
  have hunit : IsUnit (b : ZMod n) := by
    rcases h with hone | ⟨j, -, hminus⟩
    · rw [← ZMod.natCast_eq_natCast_iff, Nat.cast_pow, Nat.cast_one] at hone
      exact (isUnit_pow_iff hne).mp (hone ▸ isUnit_one)
    · rw [modEq_pred_iff hn, Nat.cast_pow] at hminus
      exact (isUnit_pow_iff (Nat.mul_ne_zero (by positivity) hne)).mp (hminus ▸ isUnit_one.neg)
  obtain ⟨x, hx⟩ := hunit
  refine ⟨x, hx, ?_⟩
  rcases h with hone | ⟨j, hj, hminus⟩
  · left
    rw [← ZMod.natCast_eq_natCast_iff, Nat.cast_pow, Nat.cast_one, ← hx] at hone
    exact Units.ext hone
  · right
    rw [modEq_pred_iff hn, Nat.cast_pow, ← hx] at hminus
    exact ⟨j, hj, Units.ext hminus⟩

include hsplit hpart hpos in
/-- One level of squaring covers all bases: the last at which minus one occurs at
all. -/
theorem exists_level : ∃ m, 2 * m ∣ n - 1 ∧ (∃ g : (ZMod n)ˣ, g ^ m = -1) ∧
    ∀ x : (ZMod n)ˣ, IsStrongUnit x twos odd → x ∈ signedRoots n m := by
  classical
  obtain ⟨level, hlevel, hmax⟩ := Finset.exists_max_image
    {j ∈ Finset.range twos | ∃ g : (ZMod n)ˣ, g ^ 2 ^ j = -1} id
    ⟨0, Finset.mem_filter.mpr ⟨Finset.mem_range.mpr hpos, -1, by rw [pow_zero, pow_one]⟩⟩
  rw [Finset.mem_filter, Finset.mem_range] at hlevel
  obtain ⟨hlt, g, hg⟩ := hlevel
  refine ⟨2 ^ level * odd, ?_, ⟨g, ?_⟩, ?_⟩
  · rw [← hsplit, ← mul_assoc, ← pow_succ']
    exact Nat.mul_dvd_mul_right (Nat.pow_dvd_pow 2 (by omega)) odd
  · rw [pow_mul, hg]
    exact (Nat.odd_iff.mpr hpart).neg_one_pow
  · intro x hx
    rcases hx with hone | ⟨j, hj, hminus⟩
    · left
      rw [mul_comm, pow_mul, hone, one_pow]
    · -- minus one at a level below becomes one
      have hle : j ≤ level := hmax j (Finset.mem_filter.mpr
        ⟨Finset.mem_range.mpr hj, x ^ odd, by rw [← pow_mul, mul_comm, hminus]⟩)
      rcases hle.eq_or_lt with rfl | hlt
      · exact .inr hminus
      · left
        obtain ⟨c, rfl⟩ := Nat.exists_eq_add_of_lt hlt
        have hpower : 2 ^ (j + c + 1) * odd = 2 ^ j * odd * (2 * 2 ^ c) := by ring
        rw [hpower, pow_mul, hminus, pow_mul, neg_one_sq, one_pow]

theorem isStrongTo_one : IsStrongTo n 1 twos odd := by
  left
  rw [one_pow]

include hpart hpos in
theorem isStrongTo_pred (hn : 0 < n) : IsStrongTo n (n - 1) twos odd := by
  have hminus : ((n - 1 : Nat) : ZMod n) = -1 := (modEq_pred_iff hn _).mp rfl
  refine .inr ⟨0, hpos, ?_⟩
  rw [modEq_pred_iff hn, pow_zero, one_mul, Nat.cast_pow, hminus]
  exact (Nat.odd_iff.mpr hpart).neg_one_pow

include hpart in
/-- Numbers below `n` to which it is strong are the values of different units. -/
theorem card_le_of_isStrongTo [NeZero n] {m : Nat}
    (hroots : ∀ x : (ZMod n)ˣ, IsStrongUnit x twos odd → x ∈ signedRoots n m) {bases : Finset Nat}
    (hbases : ∀ b ∈ bases, b < n ∧ IsStrongTo n b twos odd) :
    bases.card ≤ Nat.card (signedRoots n m) := by
  have hcover : (bases : Set Nat) ⊆ (fun x : (ZMod n)ˣ => (x : ZMod n).val) '' signedRoots n m := by
    intro b hb
    obtain ⟨hlt, hstrong⟩ := hbases b hb
    obtain ⟨x, hx, hunit⟩ := exists_unit_of_isStrongTo hpart (NeZero.pos n) hstrong
    refine ⟨x, hroots x hunit, ?_⟩
    dsimp only
    rw [hx, ZMod.val_natCast_of_lt hlt]
  rw [← Set.ncard_coe_finset]
  exact (Set.ncard_le_ncard hcover (Set.toFinite _)).trans (Set.ncard_image_le (Set.toFinite _))

include hpart hpos in
/-- With one and `n - 1` there are two more of them. -/
theorem card_strongBases_add_two_le (hn : 2 < n) {m : Nat}
    (hroots : ∀ x : (ZMod n)ˣ, IsStrongUnit x twos odd → x ∈ signedRoots n m) :
    (strongBases n twos odd).card + 2 ≤ Nat.card (signedRoots n m) := by
  have : NeZero n := ⟨by omega⟩
  have hrange : ∀ b ∈ strongBases n twos odd, 2 ≤ b ∧ b ≤ n - 2 := by
    intro b hb
    exact Finset.mem_Icc.mp (Finset.mem_filter.mp hb).1
  have hpred : n - 1 ∉ strongBases n twos odd := by
    intro hmem
    have := hrange _ hmem
    omega
  have hone : 1 ∉ insert (n - 1) (strongBases n twos odd) := by
    intro hmem
    rcases Finset.mem_insert.mp hmem with heq | hmem
    · omega
    · have := hrange _ hmem
      omega
  have hcard : (insert 1 (insert (n - 1) (strongBases n twos odd))).card =
      (strongBases n twos odd).card + 2 := by
    rw [Finset.card_insert_of_notMem hone, Finset.card_insert_of_notMem hpred]
  rw [← hcard]
  apply card_le_of_isStrongTo hpart hroots
  intro b hb
  rw [Finset.mem_insert, Finset.mem_insert] at hb
  rcases hb with rfl | rfl | hb
  · exact ⟨by omega, isStrongTo_one⟩
  · exact ⟨by omega, isStrongTo_pred hpart hpos (by omega)⟩
  · have := hrange b hb
    exact ⟨by omega, (Finset.mem_filter.mp hb).2⟩

include hsplit hpart hpos in
/-- At most one in four of the bases from two to `n - 2` is one to which a composite
number above nine is strong. -/
theorem four_mul_card_strongBases_le (hodd : n % 2 = 1) (hn : 9 < n) (hcomposite : ¬ n.Prime) :
    4 * (strongBases n twos odd).card ≤ n - 3 := by
  have : NeZero n := ⟨by omega⟩
  obtain ⟨m, hm, ⟨g, hg⟩, hroots⟩ := exists_level hsplit hpart hpos
  have hstrong := card_strongBases_add_two_le hpart hpos (by omega) hroots
  have hunits := four_mul_card_signedRoots_le hodd hn hcomposite hm hg
  have htotient : Nat.card (ZMod n)ˣ ≤ n - 1 := by
    rw [Nat.card_eq_fintype_card, ZMod.card_units_eq_totient]
    have := Nat.totient_lt n (by omega)
    omega
  omega

end CryptoPrimes.Prime
