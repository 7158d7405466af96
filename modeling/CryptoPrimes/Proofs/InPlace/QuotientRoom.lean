import CryptoPrimes.Proofs.InPlace.Division

/-!
# How long a quotient must be

A caller of the division may hand over fewer words for the quotient than dividend
and divisor allow for, as long as they hold every nonzero quotient word.  Long
division drops a top quotient word that is zero and has no place.  Division by
one word starts from a copy of the whole dividend, and there is no place for it
in a quotient one word shorter.

So what a quotient of minimal length leads to depends on the divisor's length,
and not on the quotient alone: `divRem_short_quotient` divides to one quotient by
a divisor of one word and by one of two.
-/

namespace CryptoPrimes.InPlace

open Limbs Trapping

variable {w : Width} {a b q r : Limbs w}

/-- A divisor of one word takes at most the top word of the dividend away. -/
theorem wordLen_le_of_quotient {n : Nat} (hone : wordLen b = 1)
    (hfit : val a / val b < 2 ^ (w.bits * n)) : wordLen a ≤ n + 1 := by
  have hb : 0 < val b := Nat.pos_of_ne_zero fun h => by
    rw [(wordLen_eq_zero_iff b).mpr h] at hone
    omega
  have hlt : val b < 2 ^ w.bits := by
    have h := (wordLen_bounds b).1
    rwa [hone, Nat.mul_one] at h
  rw [wordLen_le_iff, radix_succ]
  calc val a < (val a / val b + 1) * val b := by
        have := Nat.lt_mul_div_succ (val a) hb
        rwa [Nat.mul_comm]
    _ ≤ 2 ^ (w.bits * n) * val b := Nat.mul_le_mul_right _ hfit
    _ ≤ 2 ^ (w.bits * n) * 2 ^ w.bits := Nat.mul_le_mul_left _ hlt.le
    _ = 2 ^ w.bits * 2 ^ (w.bits * n) := Nat.mul_comm _ _

/-- Into a quotient that holds every nonzero quotient word, the division ends with
quotient and remainder if it can also hold the dividend or need not.  A division
by one word into a shorter quotient, which then lacks a single word, stops. -/
theorem divRem_minimal_quotient (w : Width) (q r a b : Limbs w) (hb : val b ≠ 0)
    (hr : r.length = b.length) (hfit : val a / val b < 2 ^ (w.bits * q.length))
    (scratch : Limbs w) (hdepth : divRemDepth a.length b.length ≤ scratch.length)
    (hsize : scratch.length < sizeLimit) :
    ((wordLen b = 1 → val b ≤ val a → wordLen a ≤ q.length) →
      ∃ q' r' rest : Limbs w, divRem q r a b scratch = .ok ((q', r'), rest) ∧
        q'.length = q.length ∧ r'.length = b.length ∧ IsDivision a b q' r') ∧
    (wordLen b = 1 → val b ≤ val a → q.length < wordLen a →
      q.length + 1 = wordLen a ∧ divRem q r a b scratch = .error .outOfRange) := by
  have hwords : wordLen b ≠ 0 := mt (wordLen_eq_zero_iff b).mp hb
  have hfollows : Work.Follows (divRemDepth a.length b.length) Eq (divRem q r a b)
      (Trapping.divRem q.length b.length a b) := (follows_divRem rfl hr).imp fun _ _ h => h.1
  refine ⟨fun hcopies => ?_, fun hone hge hshort => ⟨?_, ?_⟩⟩
  · have hroom : HasRoom a b q.length := ⟨hfit, hcopies⟩
    have hwordsize : a.length + 1 < sizeLimit := by
      unfold divRemDepth at hdepth
      omega
    obtain ⟨q', r', hplain, hqlen, hqval, hrlen, hrval⟩ := divRem_room hb hroom
    obtain ⟨_, _, hagree, -⟩ := divRem_agree_room hwords hroom hwordsize
    obtain ⟨rest, hrun, -, -⟩ := hagree.followed hplain hfollows scratch hdepth
    exact ⟨q', r', rest, hrun, hqlen, hrlen, isDivision_of_val hb hqval hrval⟩
  · have := wordLen_le_of_quotient hone hfit
    omega
  · have hstops := (divRem_agree_short hone hge hshort).trapping
    exact hfollows.computes (hstops.mono (Nat.zero_le _)) scratch hdepth

/-- Three words by two, of which the quotient needs one. -/
theorem divRem_minimal_quotient_one_word :
    val ([0, 2] : Limbs .w64) ≠ 0 ∧
      val ([0, 0, 1] : Limbs .w64) / val ([0, 2] : Limbs .w64) < 2 ^ (Width.w64.bits * 1) ∧
      ∃ q' r' rest : Limbs .w64,
        divRem [7] [7, 7] [0, 0, 1] [0, 2] (zeros 6) = .ok ((q', r'), rest) ∧
        q'.length = 1 ∧ r'.length = 2 ∧ IsDivision [0, 0, 1] [0, 2] q' r' :=
  ⟨by decide, by decide, (divRem_minimal_quotient .w64 [7] [7, 7] [0, 0, 1] [0, 2] (by decide) rfl
    (by decide) (zeros 6) (by decide) (by decide)).1 fun h => absurd h (by decide)⟩

/-- The same quotient from a divisor of one word and from one of two, into one
word that holds it: the first division stops. -/
theorem divRem_short_quotient :
    val ([0, 1] : Limbs .w64) / val ([2] : Limbs .w64) < 2 ^ (Width.w64.bits * 1) ∧
      val ([0, 0, 1] : Limbs .w64) / val ([0, 2] : Limbs .w64) =
        val ([0, 1] : Limbs .w64) / val ([2] : Limbs .w64) ∧
      divRem [7] [7] ([0, 1] : Limbs .w64) [2] (zeros 4) = .error .outOfRange ∧
      (divRem [7] [7, 7] ([0, 0, 1] : Limbs .w64) [0, 2] (zeros 6)).map Prod.fst =
        .ok ([0x8000000000000000], [0, 0]) :=
  ⟨by decide, by decide, rfl, rfl⟩

end CryptoPrimes.InPlace
