import Mathlib.NumberTheory.ArithmeticFunction.Carmichael
import Mathlib.RingTheory.ZMod.UnitsCyclic

/-!
# Roots of one and minus one modulo a composite number

Modulo an odd composite number above nine, at most one unit in four has the power `m` one
or minus one, if minus one is a power `m` and `2 * m` divides `n - 1`
(`four_mul_card_signedRoots_le`).

* Modulo a power of a prime the units are cyclic, and few of them are roots of one at all
  (`four_mul_card_of_prime_pow`).
* Modulo coprime factors a unit may be a root of minus one for the first and of one for
  the second, so these roots are at most half of a larger group.  That group is at most
  half of the units if some unit is no root of one (`four_mul_card_of_pow_ne_one`).
* If all units are roots of one, there are three coprime factors
  (`three_factors_of_forall_pow_eq_one`), and the third one takes the place of that unit
  (`four_mul_card_of_three`).
-/

namespace CryptoPrimes.Prime

/-! ## Roots of one and minus one -/

/-- The units whose power `m` is one or minus one. -/
def signedRoots (n m : Nat) : Subgroup (ZMod n)ˣ where
  carrier := {x | x ^ m = 1 ∨ x ^ m = -1}
  one_mem' := .inl (one_pow m)
  mul_mem' := by
    rintro x y (hx | hx) (hy | hy) <;> simp [mul_pow, hx, hy]
  inv_mem' := by
    rintro x (hx | hx) <;> simp [inv_pow, hx]

theorem mem_signedRoots {n m : Nat} {x : (ZMod n)ˣ} :
    x ∈ signedRoots n m ↔ x ^ m = 1 ∨ x ^ m = -1 := Iff.rfl

/-- The units whose power `m` is one. -/
def roots (n m : Nat) : Subgroup (ZMod n)ˣ := (powMonoidHom m).ker

theorem mem_roots {n m : Nat} {x : (ZMod n)ˣ} : x ∈ roots n m ↔ x ^ m = 1 := Iff.rfl

theorem signedRoots_le_roots {n m k : Nat} (h : 2 * m ∣ k) : signedRoots n m ≤ roots n k := by
  obtain ⟨c, rfl⟩ := h
  intro x hx
  rw [mem_roots, mul_comm 2, pow_mul, pow_mul]
  rcases mem_signedRoots.mp hx with h | h
  · rw [h, one_pow, one_pow]
  · rw [h, neg_one_sq, one_pow]

/-- A subgroup that is not everything of a larger one is at most half of it. -/
theorem two_mul_card_le_of_lt {G : Type*} [Group G] [Finite G] {H K : Subgroup G} (h : H < K) :
    2 * Nat.card H ≤ Nat.card K := by
  obtain ⟨c, hc⟩ := Subgroup.card_dvd_of_le h.le
  have hlt : Nat.card H < Nat.card K := by
    by_contra hge
    exact h.ne (Subgroup.eq_of_le_of_card_ge h.le (not_lt.mp hge))
  have hc2 : 2 ≤ c := by
    by_contra hsmall
    have : Nat.card H * c ≤ Nat.card H * 1 := Nat.mul_le_mul_left _ (by omega)
    omega
  rw [hc, Nat.mul_comm]
  exact Nat.mul_le_mul_left _ hc2

theorem two_mul_card_le_of_not_mem {G : Type*} [Group G] [Finite G] {H : Subgroup G} {x : G}
    (hx : x ∉ H) : 2 * Nat.card H ≤ Nat.card G := by
  have htop : H < ⊤ := by
    apply lt_top_iff_ne_top.mpr
    rintro rfl
    exact hx (Subgroup.mem_top x)
  have h := two_mul_card_le_of_lt htop
  rwa [Subgroup.card_top] at h

theorem neg_one_ne_one_of_two_lt {u : Nat} (hu : 2 < u) : (-1 : (ZMod u)ˣ) ≠ 1 := by
  have : Fact (2 < u) := ⟨hu⟩
  intro h
  exact ZMod.neg_one_ne_one (Units.ext_iff.mp h)

/-! ## Coprime factors -/

section Coprime

variable {u v m : Nat} (h : u.Coprime v)

/-- Units modulo a product of coprime numbers are pairs of units. -/
def unitsSplit : (ZMod (u * v))ˣ ≃* (ZMod u)ˣ × (ZMod v)ˣ :=
  (Units.mapEquiv (ZMod.chineseRemainder h).toMulEquiv).trans MulEquiv.prodUnits

theorem unitsSplit_neg_one : unitsSplit h (-1) = (-1, -1) := by
  have hcast : ZMod.chineseRemainder h (-1) = (-1, -1) := by
    rw [map_neg, map_one]
    rfl
  exact Prod.ext (Units.ext (congrArg Prod.fst hcast)) (Units.ext (congrArg Prod.snd hcast))

theorem pow_eq_neg_one_iff (x : (ZMod (u * v))ˣ) :
    x ^ m = -1 ↔ (unitsSplit h x).1 ^ m = -1 ∧ (unitsSplit h x).2 ^ m = -1 := by
  rw [← (unitsSplit h).injective.eq_iff, map_pow, unitsSplit_neg_one, Prod.ext_iff]
  exact Iff.rfl

theorem pow_eq_one_iff_split (x : (ZMod (u * v))ˣ) :
    x ^ m = 1 ↔ (unitsSplit h x).1 ^ m = 1 ∧ (unitsSplit h x).2 ^ m = 1 := by
  rw [← (unitsSplit h).injective.eq_iff, map_pow, map_one, Prod.ext_iff]
  exact Iff.rfl

/-- The units whose power `m` is one or minus one modulo the first factor. -/
def firstSignedRoots (m : Nat) : Subgroup (ZMod (u * v))ˣ :=
  (signedRoots u m).comap ((MonoidHom.fst _ _).comp (unitsSplit h).toMonoidHom)

theorem mem_firstSignedRoots {x : (ZMod (u * v))ˣ} :
    x ∈ firstSignedRoots h m ↔ (unitsSplit h x).1 ^ m = 1 ∨ (unitsSplit h x).1 ^ m = -1 := Iff.rfl

variable (hu : 2 < u) (hv : 2 < v) {g : (ZMod (u * v))ˣ} (hg : g ^ m = -1)

include h hu hv hg

/-- If minus one is a power `m`, then so is a number that is minus one modulo one
factor and one modulo the other. -/
theorem exists_not_signedRoot :
    ∃ x : (ZMod (u * v))ˣ, x ^ (2 * m) = 1 ∧ x ∉ signedRoots (u * v) m := by
  have hleft := ((pow_eq_neg_one_iff h g).mp hg).1
  obtain ⟨x, hx⟩ := (unitsSplit h).surjective ((unitsSplit h g).1, 1)
  refine ⟨x, ?_, ?_⟩
  · rw [pow_eq_one_iff_split h, hx, Nat.mul_comm 2 m, pow_mul, hleft]
    exact ⟨neg_one_sq, one_pow _⟩
  · rintro (hone | hminus)
    · rw [pow_eq_one_iff_split h, hx, hleft] at hone
      exact neg_one_ne_one_of_two_lt hu hone.1
    · rw [pow_eq_neg_one_iff h, hx, one_pow] at hminus
      exact neg_one_ne_one_of_two_lt hv hminus.2.symm

theorem signedRoots_lt_roots : signedRoots (u * v) m < roots (u * v) (2 * m) := by
  obtain ⟨x, hroot, hx⟩ := exists_not_signedRoot h hu hv hg
  refine lt_of_le_of_ne (signedRoots_le_roots dvd_rfl) ?_
  intro heq
  rw [heq] at hx
  exact hx hroot

theorem signedRoots_lt_firstSignedRoots : signedRoots (u * v) m < firstSignedRoots h m := by
  have hright := ((pow_eq_neg_one_iff h g).mp hg).2
  apply lt_of_le_of_ne
  · rintro x (hone | hminus)
    · exact .inl ((pow_eq_one_iff_split h x).mp hone).1
    · exact .inr ((pow_eq_neg_one_iff h x).mp hminus).1
  · intro heq
    obtain ⟨x, hx⟩ := (unitsSplit h).surjective (1, (unitsSplit h g).2)
    have hmem : x ∈ firstSignedRoots h m := by
      rw [mem_firstSignedRoots, hx, one_pow]
      exact .inl rfl
    rw [← heq] at hmem
    rcases hmem with hone | hminus
    · rw [pow_eq_one_iff_split h, hx, hright] at hone
      exact neg_one_ne_one_of_two_lt hv hone.2
    · rw [pow_eq_neg_one_iff h, hx, one_pow] at hminus
      exact neg_one_ne_one_of_two_lt hu hminus.1.symm

end Coprime

/-- Two factors suffice if some unit has a power `2 * m` other than one. -/
theorem four_mul_card_of_pow_ne_one {u v m : Nat} [NeZero (u * v)] (h : u.Coprime v) (hu : 2 < u)
    (hv : 2 < v) {g : (ZMod (u * v))ˣ} (hg : g ^ m = -1)
    {x : (ZMod (u * v))ˣ} (hx : x ^ (2 * m) ≠ 1) :
    4 * Nat.card (signedRoots (u * v) m) ≤ Nat.card (ZMod (u * v))ˣ := by
  have hlower := two_mul_card_le_of_lt (signedRoots_lt_roots h hu hv hg)
  have hupper := two_mul_card_le_of_not_mem (mt mem_roots.mp hx)
  omega

/-- Three factors always suffice. -/
theorem four_mul_card_of_three {a b v m : Nat} [NeZero (a * b * v)] (hab : a.Coprime b)
    (h : (a * b).Coprime v) (ha : 2 < a) (hb : 2 < b) (hv : 2 < v)
    {g : (ZMod (a * b * v))ˣ} (hg : g ^ m = -1) :
    4 * Nat.card (signedRoots (a * b * v) m) ≤ Nat.card (ZMod (a * b * v))ˣ := by
  have hu : 2 < a * b := lt_of_lt_of_le ha (Nat.le_mul_of_pos_right a (by omega))
  have hlower := two_mul_card_le_of_lt (signedRoots_lt_firstSignedRoots h hu hv hg)
  -- the first two factors have a unit outside the middle group
  obtain ⟨y, -, hy⟩ := exists_not_signedRoot hab ha hb ((pow_eq_neg_one_iff h g).mp hg).1
  obtain ⟨x, hx⟩ := (unitsSplit h).surjective (y, 1)
  have houtside : x ∉ firstSignedRoots h m := by
    rw [mem_firstSignedRoots, hx]
    exact hy
  have hupper := two_mul_card_le_of_not_mem houtside
  omega

/-! ## Prime powers -/

/-- A prime factor of a number does not divide the number before it. -/
theorem not_dvd_pred {p n : Nat} (hp : p.Prime) (hn : 0 < n) (hdvd : p ∣ n) : ¬ p ∣ n - 1 := by
  intro hpred
  have hone : p ∣ 1 := (Nat.dvd_sub_iff_right hn hdvd).mp hpred
  exact hp.one_lt.ne' (Nat.dvd_one.mp hone)

/-- Modulo a power of a prime `p`, the order of a root divides `p - 1`. -/
theorem roots_le_roots_pred {p e : Nat} (hp : p.Prime) (he : 0 < e) :
    roots (p ^ e) (p ^ e - 1) ≤ roots (p ^ e) (p - 1) := by
  have : NeZero (p ^ e) := ⟨(pow_pos hp.pos e).ne'⟩
  intro x hx
  have hroot : orderOf x ∣ p ^ e - 1 := orderOf_dvd_of_pow_eq_one hx
  have htotient : orderOf x ∣ p ^ (e - 1) * (p - 1) := by
    rw [← Nat.totient_prime_pow hp he, ← ZMod.card_units_eq_totient]
    exact orderOf_dvd_card
  -- the order is prime to `p`, as it divides a number next to a power of `p`
  have hcoprime : (orderOf x).Coprime (p ^ (e - 1)) := by
    apply Nat.Coprime.pow_right
    apply Nat.Coprime.coprime_dvd_left hroot
    rw [Nat.coprime_comm, hp.coprime_iff_not_dvd]
    exact not_dvd_pred hp (pow_pos hp.pos e) (dvd_pow_self p he.ne')
  exact orderOf_dvd_iff_pow_eq_one.mp (hcoprime.dvd_of_dvd_mul_left htotient)

theorem card_roots_le {n k : Nat} [NeZero n] [IsCyclic (ZMod n)ˣ] (hk : 0 < k) :
    Nat.card (roots n k) ≤ k := by
  classical
  rw [Nat.subtype_card (Finset.univ.filter fun x : (ZMod n)ˣ => x ^ k = 1)
    (fun x => by rw [Finset.mem_filter_univ, mem_roots])]
  exact IsCyclic.card_pow_eq_one_le hk

/-- Modulo a power of a prime above nine the roots are few. -/
theorem four_mul_card_of_prime_pow {p e : Nat} (hp : p.Prime) (hodd : p ≠ 2) (he : 2 ≤ e)
    (hlarge : 9 < p ^ e) :
    4 * Nat.card (roots (p ^ e) (p ^ e - 1)) ≤ Nat.card (ZMod (p ^ e))ˣ := by
  have : NeZero (p ^ e) := ⟨(pow_pos hp.pos e).ne'⟩
  have : IsCyclic (ZMod (p ^ e))ˣ := ZMod.isCyclic_units_of_prime_pow p hp hodd e
  have htwo := hp.two_le
  have hroots : Nat.card (roots (p ^ e) (p ^ e - 1)) ≤ p - 1 :=
    (Subgroup.card_le_of_le (roots_le_roots_pred hp (by omega))).trans (card_roots_le (by omega))
  have hpower : 4 ≤ p ^ (e - 1) := by
    obtain ⟨e, rfl⟩ := Nat.exists_eq_add_of_le' he
    rw [show e + 2 - 1 = e + 1 by omega]
    by_contra hsmall
    have hle : p ≤ p ^ (e + 1) := Nat.le_self_pow (by omega) p
    have hsquare : p ^ (e + 2) ≤ 3 * 3 := by
      rw [pow_succ]
      exact Nat.mul_le_mul (by omega) (by omega)
    omega
  calc 4 * Nat.card (roots (p ^ e) (p ^ e - 1)) ≤ p ^ (e - 1) * (p - 1) :=
        Nat.mul_le_mul hpower hroots
    _ = Nat.card (ZMod (p ^ e))ˣ := by
        rw [← Nat.totient_prime_pow hp (by omega), ← ZMod.card_units_eq_totient,
          Nat.card_eq_fintype_card]

/-! ## Composite numbers -/

/-- If all units have the power `n - 1` one, then no square of a prime divides `n`, and
`q - 1` divides `n - 1` for every prime factor `q`. -/
theorem prime_factor_of_forall_pow_eq_one {n q : Nat} (hn : 0 < n) (hodd : n % 2 = 1)
    (hall : ∀ x : (ZMod n)ˣ, x ^ (n - 1) = 1) (hq : q.Prime) (hdvd : q ∣ n) :
    ¬ q ^ 2 ∣ n ∧ q - 1 ∣ n - 1 := by
  have hqodd : q ≠ 2 := by
    rintro rfl
    omega
  have hexponent : ArithmeticFunction.carmichael n ∣ n - 1 := by
    rw [ArithmeticFunction.carmichael_eq_exponent hn.ne']
    exact Monoid.exponent_dvd_of_forall_pow_eq_one hall
  have htotient : ∀ k, q ^ k ∣ n → Nat.totient (q ^ k) ∣ n - 1 := by
    intro k hk
    rw [← ArithmeticFunction.carmichael_pow_of_prime_ne_two k hq hqodd]
    exact (ArithmeticFunction.carmichael_dvd hk).trans hexponent
  constructor
  · intro hsquare
    apply not_dvd_pred hq hn hdvd
    have h := htotient 2 hsquare
    rw [Nat.totient_prime_pow hq (by decide)] at h
    exact (Dvd.intro _ (by ring : q * (q - 1) = q ^ (2 - 1) * (q - 1))).trans h
  · have h := htotient 1 (by rwa [pow_one])
    rwa [pow_one, Nat.totient_prime hq] at h

/-- An odd number is above two unless it is one. -/
theorem two_lt_of_odd {n d : Nat} (hodd : n % 2 = 1) (hd : d ∣ n) (hne : d ≠ 1) : 2 < d := by
  obtain ⟨c, rfl⟩ := hd
  rcases d with _ | _ | _ | d
  · omega
  · omega
  · omega
  · omega

/-- A composite number is a power of a prime or a product of coprime factors. -/
theorem composite_cases {n : Nat} (hodd : n % 2 = 1) (hn : 1 < n) (hcomposite : ¬ n.Prime) :
    (∃ p e, p.Prime ∧ 2 ≤ e ∧ n = p ^ e) ∨
      ∃ u v, u.Coprime v ∧ 2 < u ∧ 2 < v ∧ n = u * v := by
  have hp : n.minFac.Prime := Nat.minFac_prime (by omega)
  obtain ⟨e, v, hv, hsplit⟩ :=
    Nat.exists_eq_pow_mul_and_not_dvd (by omega : n ≠ 0) n.minFac hp.ne_one
  have he : e ≠ 0 := by
    rintro rfl
    rw [pow_zero, one_mul] at hsplit
    rw [← hsplit] at hv
    exact hv n.minFac_dvd
  by_cases hone : v = 1
  · left
    rw [hone, mul_one] at hsplit
    refine ⟨n.minFac, e, hp, ?_, hsplit⟩
    by_contra hsmall
    have heone : e = 1 := by omega
    rw [heone, pow_one] at hsplit
    rw [hsplit] at hcomposite
    exact hcomposite hp
  · right
    refine ⟨n.minFac ^ e, v, Nat.Coprime.pow_left e ((hp.coprime_iff_not_dvd).mpr hv), ?_, ?_,
      hsplit⟩
    · apply two_lt_of_odd hodd (Dvd.intro _ hsplit.symm)
      rw [Ne, Nat.pow_eq_one]
      have := hp.ne_one
      omega
    · exact two_lt_of_odd hodd (Dvd.intro_left _ hsplit.symm) hone

/-- The predecessor of a factor divides that of the product only with that of the other
factor. -/
theorem pred_dvd_pred {p q : Nat} (hp : 0 < p) (hq : 0 < q) (h : p - 1 ∣ p * q - 1) :
    p - 1 ∣ q - 1 := by
  obtain ⟨p, rfl⟩ := Nat.exists_eq_add_of_le' hp
  obtain ⟨q, rfl⟩ := Nat.exists_eq_add_of_le' hq
  have hsplit : (p + 1) * (q + 1) - 1 = p * (q + 1) + q := by
    rw [Nat.succ_mul]
    omega
  rw [Nat.add_sub_cancel, hsplit, Nat.dvd_add_right (Nat.dvd_mul_right p _)] at h
  exact h

/-- If all units have the power `n - 1` one, a composite number has three coprime
factors: it is no product of two primes, as their predecessors would divide each
other. -/
theorem three_factors_of_forall_pow_eq_one {n : Nat} (hodd : n % 2 = 1) (hn : 1 < n)
    (hcomposite : ¬ n.Prime) (hall : ∀ x : (ZMod n)ˣ, x ^ (n - 1) = 1) :
    ∃ a b c, a.Coprime b ∧ (a * b).Coprime c ∧ 2 < a ∧ 2 < b ∧ 2 < c ∧ n = a * b * c := by
  have hfactor : ∀ q z, q.Prime → n = q * z → ¬ q ∣ z ∧ q - 1 ∣ z - 1 := by
    rintro q z hq rfl
    obtain ⟨hsquare, hpred⟩ :=
      prime_factor_of_forall_pow_eq_one (by omega) hodd hall hq (Nat.dvd_mul_right q z)
    have hz : z ≠ 0 := by
      rintro rfl
      omega
    refine ⟨?_, pred_dvd_pred hq.pos (Nat.pos_of_ne_zero hz) hpred⟩
    intro hdvd
    rw [pow_two] at hsquare
    exact hsquare (Nat.mul_dvd_mul_left q hdvd)
  have hp : n.minFac.Prime := Nat.minFac_prime (by omega)
  obtain ⟨v, hv⟩ := n.minFac_dvd
  obtain ⟨hpv, hpredp⟩ := hfactor _ _ hp hv
  have hvone : v ≠ 1 := by
    rintro rfl
    rw [mul_one] at hv
    rw [hv] at hcomposite
    exact hcomposite hp
  have hq : v.minFac.Prime := Nat.minFac_prime hvone
  obtain ⟨z, hz⟩ := v.minFac_dvd
  have hsplit : n = v.minFac * (z * n.minFac) := by
    rw [← mul_assoc, ← hz, mul_comm]
    exact hv
  obtain ⟨hqz, hpredq⟩ := hfactor _ _ hq hsplit
  have hzone : z ≠ 1 := by
    rintro rfl
    rw [mul_one] at hz
    rw [one_mul, ← hz] at hpredq
    have heq := Nat.dvd_antisymm hpredp hpredq
    have hpos := hp.pos
    have hvpos := hq.pos
    rw [← hz] at hvpos
    exact hpv (by rw [show n.minFac = v by omega])
  refine ⟨v.minFac, z, n.minFac, ?_, ?_, ?_, ?_, ?_, ?_⟩
  · rw [hq.coprime_iff_not_dvd]
    exact fun hdvd => hqz (hdvd.mul_right _)
  · rw [← hz, Nat.coprime_comm, hp.coprime_iff_not_dvd]
    exact hpv
  · exact two_lt_of_odd hodd (Dvd.intro _ hsplit.symm) hq.ne_one
  · apply two_lt_of_odd hodd _ hzone
    rw [hv, hz]
    exact (Dvd.intro_left _ rfl).mul_left _
  · exact two_lt_of_odd hodd n.minFac_dvd hp.ne_one
  · rw [mul_assoc]
    exact hsplit

/-- Among the units modulo a composite number above nine, at most one in four has the
power `m` one or minus one, if minus one is a power `m` and `2 * m` divides `n - 1`. -/
theorem four_mul_card_signedRoots_le {n m : Nat} (hodd : n % 2 = 1) (hn : 9 < n)
    (hcomposite : ¬ n.Prime) (hm : 2 * m ∣ n - 1) {g : (ZMod n)ˣ} (hg : g ^ m = -1) :
    4 * Nat.card (signedRoots n m) ≤ Nat.card (ZMod n)ˣ := by
  have : NeZero n := ⟨by omega⟩
  rcases composite_cases hodd (by omega) hcomposite with
    ⟨p, e, hp, he, rfl⟩ | ⟨u, v, h, hu, hv, hsplit⟩
  · -- a power of a prime: the roots themselves are few
    have hptwo : p ≠ 2 := by
      rintro rfl
      rw [Nat.pow_mod] at hodd
      simp [Nat.ne_of_gt (by omega : 0 < e)] at hodd
    have hle := Subgroup.card_le_of_le (signedRoots_le_roots (n := p ^ e) hm)
    exact (Nat.mul_le_mul_left 4 hle).trans (four_mul_card_of_prime_pow hp hptwo he hn)
  · by_cases hall : ∀ x : (ZMod n)ˣ, x ^ (n - 1) = 1
    · -- every unit passes the weaker test, and there are three coprime factors
      obtain ⟨a, b, c, hab, habc, ha, hb, hc, rfl⟩ :=
        three_factors_of_forall_pow_eq_one hodd (by omega) hcomposite hall
      exact four_mul_card_of_three hab habc ha hb hc hg
    · -- some unit fails the weaker test
      rw [not_forall] at hall
      obtain ⟨x, hx⟩ := hall
      subst hsplit
      apply four_mul_card_of_pow_ne_one h hu hv hg
      intro hroot
      obtain ⟨k, hk⟩ := hm
      apply hx
      rw [hk, pow_mul, hroot, one_pow]

end CryptoPrimes.Prime
