import CryptoPrimes.Proofs.InPlace.Division
import CryptoPrimes.Proofs.InPlace.Masked
import CryptoPrimes.Proofs.InPlace.Schoolbook

/-!
# Two ways to a product modulo a number

The Montgomery way takes two products whose rows are reduced as they come, and a
subtraction under a mask.  The schoolbook way takes the whole product first and
divides it.  They share no step, and their factors may lie beyond the modulus: a
first Montgomery product may then stay beyond it, but it is right modulo `m`
(`montMul_any_factors`), and the second one, by a constant below the modulus,
reduces it.

Both ways end with the least residue, which is one sequence of words, so they
agree word for word (`mulMod_matches_schoolbook`).  The same holds of the square,
whose schoolbook form is a routine of its own.
-/

namespace CryptoPrimes.InPlace

open Limbs CryptoPrimes.Modular Trapping

variable {w : Width} {a b m t p : Limbs w}

/-! ## The Montgomery product of any factors -/

/-- Whatever the factors are, their product has a result, and in place, where the
depth is a machine size, it is the same: `R` times it is the product of the factors
modulo `m`, and it is reduced as soon as one of them is. -/
theorem montMul_any_factors (a b m : Limbs w) (hodd : val m % 2 = 1) (ha : a.length = m.length)
    (hb : b.length = m.length) :
    ∃ c : Limbs w, c.length = m.length ∧
      val c * 2 ^ (w.bits * m.length) ≡ val a * val b [MOD val m] ∧
      (val a < val m ∨ val b < val m → val c < val m) ∧
      Work.Computes (Modular.montMul a b m (m.headD 0).negInverse) (montMulDepth m.length)
        (.ok c) ∧
      (montMulDepth m.length < sizeLimit → ∀ r : Limbs w, r.length = m.length →
        Work.Computes (montMul r a b m (m.headD 0).negInverse) (montMulDepth m.length)
          (.ok c)) := by
  have hm0 := isNegInverse_of_odd hodd
  obtain ⟨c, hplain, hlength, hvalue, hreduced⟩ := montMul_computes_any hodd hm0 ha hb
  refine ⟨c, hlength, hvalue, hreduced, hplain, fun hsize r hr => ?_⟩
  obtain ⟨_, hagree, -⟩ := montMul_agree_of_room hodd hm0 ha hb hsize
  exact hagree.followed hplain ((follows_montMul hr).imp fun _ _ h => h.1)

/-- Factors that are both beyond the modulus, and the same modulus with a factor
that is not. -/
theorem montMul_any_factors_full_words :
    (∃ c : Limbs .w32,
      Work.Computes (montMul [9, 9] [0xffffffff, 0xffffffff] [0xffffffff, 0xffffffff] [5, 0]
        (Word.negInverse 5)) 4 (.ok c) ∧
      val c * 2 ^ 64 ≡ 0xffffffffffffffff * 0xffffffffffffffff [MOD 5]) ∧
    ∃ c : Limbs .w32,
      Work.Computes (montMul [9, 9] [0xffffffff, 0xffffffff] [3, 0] [5, 0]
        (Word.negInverse 5)) 4 (.ok c) ∧
      val c * 2 ^ 64 ≡ 0xffffffffffffffff * 3 [MOD 5] ∧ val c < 5 := by
  have hodd : val ([5, 0] : Limbs .w32) % 2 = 1 := by decide
  obtain ⟨c, -, hvalue, -, -, hrun⟩ :=
    montMul_any_factors ([0xffffffff, 0xffffffff] : Limbs .w32) [0xffffffff, 0xffffffff] [5, 0]
      hodd rfl rfl
  obtain ⟨c', -, hvalue', hreduced, -, hrun'⟩ :=
    montMul_any_factors ([0xffffffff, 0xffffffff] : Limbs .w32) [3, 0] [5, 0] hodd rfl rfl
  exact ⟨⟨c, hrun (by decide) [9, 9] rfl, hvalue⟩,
    c', hrun' (by decide) [9, 9] rfl, hvalue', hreduced (.inr (by decide))⟩

/-! ## Products of ordinary numbers -/

/-- The Montgomery way and the schoolbook way to a product both end with `t`, on
values and in place.  A scratch of the declared depth is enough, the words that
are written hold anything, and in place the doublings behind the Montgomery
constants are counted in a machine word. -/
structure Matches (m t : Limbs w) (montgomery : Work w (Limbs w)) (product : Checked (Limbs w))
    (montgomeryInto : Limbs w → Work w (Limbs w)) (productInto : Limbs w → Checked (Limbs w)) :
    Prop where
  montgomery : Work.Computes montgomery (mulModDepth m.length) (.ok t)
  schoolbook : ∃ p, product = .ok p ∧
    Work.Computes (Limbs.modReduce m.length p m) (divRemDepth (2 * m.length) m.length) (.ok t)
  montgomeryInPlace : w.bits * m.length < sizeLimit → ∀ r : Limbs w, r.length = m.length →
    Work.Computes (montgomeryInto r) (mulModDepth m.length) (.ok t)
  schoolbookInPlace : w.bits * m.length < sizeLimit → ∀ c r : Limbs w,
    c.length = 2 * m.length → r.length = m.length → ∃ p, productInto c = .ok p ∧
    Work.Computes (modReduce r p m) (divRemDepth (2 * m.length) m.length) (.ok t)

theorem mulMod_inPlace (hodd : val m % 2 = 1) (ha : a.length = m.length)
    (hb : b.length = m.length)
    (hplain : Work.Computes (Modular.mulMod a b m) (mulModDepth m.length) (.ok t))
    (hbits : w.bits * m.length < sizeLimit) {r : Limbs w} (hr : r.length = m.length) :
    Work.Computes (mulMod r a b m) (mulModDepth m.length) (.ok t) := by
  obtain ⟨_, hagree, -⟩ := mulMod_agree hodd ha hb hbits
  exact hagree.followed hplain ((follows_mulMod hr).imp fun _ _ h => h.1)

/-- A product divided by the modulus leaves what has its residue. -/
theorem modReduce_residue (hm : val m ≠ 0) (hp : p.length = 2 * m.length)
    (htlen : t.length = m.length) (htval : val t = val p % val m) :
    Work.Computes (Limbs.modReduce m.length p m) (divRemDepth (2 * m.length) m.length) (.ok t) ∧
      (w.bits * m.length < sizeLimit → ∀ r : Limbs w, r.length = m.length →
        Work.Computes (modReduce r p m) (divRemDepth (2 * m.length) m.length) (.ok t)) := by
  obtain ⟨s, hplain, hslen, hsval⟩ := modReduce_computes (a := p) hm
  obtain rfl : s = t := val_inj (hslen.trans htlen.symm) (hsval.trans htval.symm)
  rw [hp] at hplain
  refine ⟨hplain, fun hbits r hr => ?_⟩
  have hlength := length_lt_of_bits hbits
  obtain ⟨_, hagree⟩ := modReduce_agree (a := p) (mt (wordLen_eq_zero_iff m).mp hm)
    (by unfold sizeLimit; omega)
  rw [hp] at hagree
  exact hagree.followed hplain (hp ▸ follows_modReduce hr)

/-- The whole product `p`, once both ways are known to end with residues of it. -/
theorem matches_of_product {montgomery : Work w (Limbs w)} {product : Checked (Limbs w)}
    {montgomeryInto : Limbs w → Work w (Limbs w)} {productInto : Limbs w → Checked (Limbs w)}
    (hm : val m ≠ 0) (htlen : t.length = m.length) (htval : val t = val p % val m)
    (hp : p.length = 2 * m.length) (hproduct : product = .ok p)
    (hproductInto : w.bits * m.length < sizeLimit → ∀ c : Limbs w, c.length = 2 * m.length →
      productInto c = .ok p)
    (hmontgomery : Work.Computes montgomery (mulModDepth m.length) (.ok t))
    (hmontgomeryInto : w.bits * m.length < sizeLimit → ∀ r : Limbs w, r.length = m.length →
      Work.Computes (montgomeryInto r) (mulModDepth m.length) (.ok t)) :
    Matches m t montgomery product montgomeryInto productInto := by
  obtain ⟨hreduce, hreduceInto⟩ := modReduce_residue hm hp htlen htval
  exact ⟨hmontgomery, ⟨p, hproduct, hreduce⟩, hmontgomeryInto, fun hbits c r hc hr =>
    ⟨p, hproductInto hbits c hc, hreduceInto hbits r hr⟩⟩

/-- The schoolbook product in place is the product. -/
theorem mul_inPlace {c : Limbs w} (ha : a.length = m.length) (hb : b.length = m.length)
    (hc : c.length = 2 * m.length) (hbits : w.bits * m.length < sizeLimit) :
    mul c a b = .ok (Limbs.mul a b) := by
  have hlength := length_lt_of_bits hbits
  exact mul_eq (by omega) (by unfold sizeLimit; omega)

/-- Montgomery products agree with schoolbook products and long division: for any
factors of the modulus' length, below it or not, both ways end with the least
residue, for two factors as well as for a square. -/
theorem mulMod_matches_schoolbook (a b m : Limbs w) (hodd : val m % 2 = 1) (hm : 3 ≤ val m)
    (ha : a.length = m.length) (hb : b.length = m.length) :
    (∃ t, IsResidue m (val a * val b) t ∧
      Matches m t (Modular.mulMod a b m) (mulTo (2 * m.length) a b)
        (fun r => mulMod r a b m) (fun c => mul c a b)) ∧
    ∃ t, IsResidue m (val a ^ 2) t ∧
      Matches m t (Modular.sqrMod a m) (squareTo (2 * m.length) a)
        (fun r => sqrMod r a m) (fun c => square c a) := by
  have hne : val m ≠ 0 := by omega
  constructor
  · obtain ⟨t, hplain, hlen, hval⟩ := mulMod_computes hodd (by omega) ha hb
    have hproduct : mulTo (2 * m.length) a b = .ok (Limbs.mul a b) := by
      rw [mulTo, Checked.require_of (by omega)]
      rfl
    have hresidue := isResidue_of_mod (by omega) ⟨hlen, hval⟩
    rw [Nat.cast_mul] at hresidue
    refine ⟨t, hresidue, matches_of_product hne hlen (by rw [hval, val_mul]) ?_ hproduct ?_
      hplain fun hbits r hr => mulMod_inPlace hodd ha hb hplain hbits hr⟩
    · rw [length_mul]
      omega
    · exact fun hbits c hc => mul_inPlace ha hb hc hbits
  · obtain ⟨t, hplain, hlen, hval⟩ := mulMod_computes hodd (by omega) ha ha
    obtain ⟨hplen, hpval, -⟩ := square_spec a
    have hproduct : squareTo (2 * m.length) a = .ok (Limbs.square a).1 := by
      rw [← ha]
      exact squareTo_eq a
    have hresidue := isResidue_of_mod (by omega) ⟨hlen, hval⟩
    rw [← Nat.pow_two, Nat.cast_pow] at hresidue
    refine ⟨t, hresidue, matches_of_product hne hlen (by rw [hval, hpval]) ?_ hproduct ?_
      hplain fun hbits r hr => mulMod_inPlace hodd ha ha hplain hbits hr⟩
    · rw [hplen, ha]
    · intro hbits c hc
      have hlength := length_lt_of_bits hbits
      exact square_eq (by rw [hc, ha]) (by unfold sizeLimit; omega)

/-- Both factors are beyond the modulus, which has a zero word at the top. -/
theorem mulMod_matches_schoolbook_seven :
    let a : Limbs .w32 := [0xffffffff, 0xffffffff]
    let b : Limbs .w32 := [3, 0x80000000]
    let m : Limbs .w32 := [7, 0]
    (∃ t, (val t : Int) = 4 ∧ Matches m t (Modular.mulMod a b m) (mulTo 4 a b)
        (fun r => mulMod r a b m) (fun c => mul c a b)) ∧
      ∃ t, (val t : Int) = 1 ∧ Matches m t (Modular.sqrMod a m) (squareTo 4 a)
        (fun r => sqrMod r a m) (fun c => square c a) := by
  intro a b m
  obtain ⟨⟨t, ht, hproduct⟩, s, hs, hsquare⟩ :=
    mulMod_matches_schoolbook a b m (by decide) (by decide) rfl rfl
  exact ⟨⟨t, ht.value.trans (by decide), hproduct⟩, s, hs.value.trans (by decide), hsquare⟩

end CryptoPrimes.InPlace
