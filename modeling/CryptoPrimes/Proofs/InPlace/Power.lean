import CryptoPrimes.Proofs.InPlace.Modular

/-!
# Powers

The ladder on values ends with the reduced form of a power of the base, and the one in
place follows it.  What they end with depends on the exponent through its number alone,
and the base may be any representative of its residue (`powerMont_eq_pow`).

Modular exponentiation puts a number into its form, climbs the ladder, and leaves the form
again.  On values, in its trapping form and in place it ends with the power
(`powerMod_eq_pow_mod`).
-/

namespace CryptoPrimes.InPlace

open Limbs CryptoPrimes.Modular Trapping

variable {w : Width} {a m one : Limbs w} {x : Nat}

/-- Every exponent that stands for `n` takes the ladder to `c`, a reduced number of the
modulus' length: on values, and in place over words that hold anything, if the buffer of
a product has a size. -/
structure RaisesTo (a m one : Limbs w) (n : Nat) (c : Limbs w) : Prop where
  length : c.length = m.length
  reduced : val c < val m
  plain : ∀ e : Limbs w, val e = n →
    Work.Computes (Modular.powerMont a e m (m.headD 0).negInverse one)
      (powerMontDepth m.length) (.ok c)
  inPlace : m.length + 2 < sizeLimit → ∀ e r : Limbs w, val e = n → r.length = m.length →
    Work.Computes (powerMont r a e m (m.headD 0).negInverse one)
      (powerMontDepth m.length) (.ok c)

/-- The ladder computes powers in Montgomery form, for an odd modulus of any number of
words and from any representative of the base.  The exponents of one number, which differ
in their leading zero words only, all lead to the same power. -/
theorem powerMont_eq_pow (hodd : val m % 2 = 1) (ha : a.length = m.length)
    (hbase : val a ≡ x * 2 ^ (w.bits * m.length) [MOD val m]) (hone : one.length = m.length)
    (hradix : val one = 2 ^ (w.bits * m.length) % val m) (n : Nat) :
    ∃ c : Limbs w, val c = x ^ n * 2 ^ (w.bits * m.length) % val m ∧ RaisesTo a m one n c := by
  have hm0 := isNegInverse_of_odd hodd
  have hbase : IsLooseForm m a x := ⟨ha, hbase⟩
  have hunit := isForm_radix (by omega) hone hradix
  have hlt : x ^ n * 2 ^ (w.bits * m.length) % val m < val m := Nat.mod_lt _ (by omega)
  -- exponents of one number need not share their runs, so the end is named by its value
  have hplain : ∀ e : Limbs w, val e = n →
      Work.Computes (Modular.powerMont a e m (m.headD 0).negInverse one)
        (powerMontDepth m.length)
        (.ok (ofNat m.length (x ^ n * 2 ^ (w.bits * m.length) % val m))) := by
    rintro e rfl
    obtain ⟨r, hrun, hform⟩ := powerMont_computes hodd hm0 hbase hunit e
    rwa [eq_ofNat hform.length hform.val_eq] at hrun
  refine ⟨_, val_ofNat_of_lt (hlt.trans (val_lt m)), length_ofNat _ _, ?_, hplain, ?_⟩
  · rwa [val_ofNat_of_lt (hlt.trans (val_lt m))]
  · intro hroom e r he hr
    obtain ⟨_, hagree, -⟩ := powerMont_agree_of_room hodd hm0 ha hone hroom e
    exact hagree.followed (hplain e he)
      ((follows_powerMont hr).imp fun _ _ hsame => hsame.1)

/-- The cube of six modulo seven: the base is a representative far beyond the modulus, the
exponent has two leading zero words, and the words of the result are in use. -/
theorem powerMont_eq_pow_six :
    val ([7] : Limbs .w32) % 2 = 1 ∧
      val ([0xffffffff] : Limbs .w32) ≡ 6 * 2 ^ (Width.w32.bits * 1) [MOD val ([7] : Limbs .w32)] ∧
      val ([4] : Limbs .w32) = 2 ^ (Width.w32.bits * 1) % val ([7] : Limbs .w32) ∧
      ∀ scratch : Limbs .w32, 4 ≤ scratch.length → ∃ rest,
        powerMont ([99] : Limbs .w32) [0xffffffff] [3, 0, 0] [7] (Word.negInverse 7) [4] scratch =
          .ok ([3], rest) := by
  have hodd : val ([7] : Limbs .w32) % 2 = 1 := by decide
  have hbase : val ([0xffffffff] : Limbs .w32) ≡ 6 * 2 ^ (Width.w32.bits * 1)
      [MOD val ([7] : Limbs .w32)] := by decide
  have hradix : val ([4] : Limbs .w32) = 2 ^ (Width.w32.bits * 1) % val ([7] : Limbs .w32) := by
    decide
  have ha : ([0xffffffff] : Limbs .w32).length = ([7] : Limbs .w32).length := rfl
  have hone : ([4] : Limbs .w32).length = ([7] : Limbs .w32).length := rfl
  refine ⟨hodd, hbase, hradix, fun scratch hscratch => ?_⟩
  obtain ⟨c, hval, hc⟩ := powerMont_eq_pow hodd ha hbase hone hradix 3
  have hthree : c = [3] := val_inj hc.length (hval.trans (by decide))
  have hrun := hc.inPlace (by decide) [3, 0, 0] [99] (by decide) rfl
  obtain ⟨rest, hrest, -⟩ := hrun scratch hscratch
  exact ⟨rest, hthree ▸ hrest⟩

/-! ## Modular exponentiation -/

/-- Modular exponentiation ends with `c`, in as many words as the modulus has, on any
scratch of the declared depth: on values, and where the bits of the modulus can be
counted, in the trapping form and in place over words that hold anything. -/
structure PowerEnds (a e m c : Limbs w) : Prop where
  length : c.length = m.length
  plain : Work.Computes (Modular.powerMod a e m) (powerModDepth m.length) (.ok c)
  trapping : w.bits * m.length < sizeLimit →
    Work.Computes (Trapping.powerMod a e m) (powerModDepth m.length) (.ok c)
  inPlace : w.bits * m.length < sizeLimit → ∀ r : Limbs w, r.length = m.length →
    Work.Computes (powerMod r a e m) (powerModDepth m.length) (.ok c)

/-- Modular exponentiation, for an odd modulus from three on in any number of words.  The
base is a number of at most as many words, below the modulus or not; the exponent is any
number in any room.  In all three forms the power is computed. -/
theorem powerMod_eq_pow_mod (a e m : Limbs w) (hodd : val m % 2 = 1) (hm : 3 ≤ val m)
    (ha : a.length ≤ m.length) :
    ∃ c : Limbs w, val c = val a ^ val e % val m ∧ PowerEnds a e m c := by
  obtain ⟨c, hplain, hlength, hval⟩ := powerMod_computes hodd (by omega) ha e
  have hforms : w.bits * m.length < sizeLimit →
      Work.Agree (Modular.powerMod a e m) (Trapping.powerMod a e m) (powerModDepth m.length)
        (.ok c) := by
    intro hbits
    obtain ⟨c', hagree, -⟩ := powerMod_agree hodd ha hbits e
    rwa [hagree.plain.unique hplain] at hagree
  refine ⟨c, hval, hlength, hplain, fun hbits => (hforms hbits).trapping, fun hbits r hr => ?_⟩
  exact (hforms hbits).followed hplain ((follows_powerMod hr).imp fun _ _ hsame => hsame.1)

/-- The cube of a base beyond its modulus, all in room to spare, over words in use. -/
theorem powerMod_eq_pow_mod_six :
    val ([7, 0] : Limbs .w32) % 2 = 1 ∧ 3 ≤ val ([7, 0] : Limbs .w32) ∧
      ([20] : Limbs .w32).length ≤ ([7, 0] : Limbs .w32).length ∧
      Width.w32.bits * ([7, 0] : Limbs .w32).length < sizeLimit ∧
      ∀ scratch : Limbs .w32, 14 ≤ scratch.length → ∃ rest,
        powerMod ([99, 99] : Limbs .w32) [20] [3, 0] [7, 0] scratch = .ok ([6, 0], rest) := by
  have hodd : val ([7, 0] : Limbs .w32) % 2 = 1 := by decide
  have hm : 3 ≤ val ([7, 0] : Limbs .w32) := by decide
  have ha : ([20] : Limbs .w32).length ≤ ([7, 0] : Limbs .w32).length := by decide
  have hbits : Width.w32.bits * ([7, 0] : Limbs .w32).length < sizeLimit := by decide
  refine ⟨hodd, hm, ha, hbits, fun scratch hscratch => ?_⟩
  obtain ⟨c, hval, hc⟩ := powerMod_eq_pow_mod ([20] : Limbs .w32) [3, 0] [7, 0] hodd hm ha
  have hsix : c = [6, 0] := val_inj hc.length (hval.trans (by decide))
  obtain ⟨rest, hrest, -⟩ := hc.inPlace hbits [99, 99] rfl scratch hscratch
  exact ⟨rest, hsix ▸ hrest⟩

end CryptoPrimes.InPlace
