import CryptoPrimes.Proofs.InPlace.Prime
import CryptoPrimes.Proofs.Prime.Witnesses

/-!
# The strong test in place is the textbook test

The rounds in place compare Montgomery forms, stop at the first square that is one
and leave the last square out.  They end as the rounds on values do, and those as
their witnesses say, so the test in place is the textbook test of its witnesses as
well (`strongTest_textbook`), whatever its eight buffers held before.  Without
witnesses, for one significant word or an even number, it reads the number only.
-/

namespace CryptoPrimes.InPlace

open Limbs CryptoPrimes.Modular Trapping CryptoPrimes.Prime

variable {w : Width} {σ : Type} [ByteSource σ] {a : Limbs w}

theorem strongTest_oneWord (h : wordLen a ≤ 1) (fuel k : Nat) (source : σ) (scratch : Limbs w) :
    InPlace.strongTest fuel a k source scratch =
      .ok ((CryptoPrimes.SingleWord.isPrime (a.headD 0).toNat, source), scratch) := by
  rw [InPlace.strongTest, InPlace.strongTestFrom, if_pos h, Trapping.SingleWord.isPrime_eq]
  rfl

theorem strongTest_even (hwords : 2 ≤ wordLen a) (heven : isOdd a = false) (fuel k : Nat)
    (source : σ) (scratch : Limbs w) :
    InPlace.strongTest fuel a k source scratch = .ok ((false, source), scratch) := by
  rw [InPlace.strongTest, InPlace.strongTestFrom, if_neg (by omega)]
  cases a with
  | nil => exact absurd hwords (Nat.not_succ_le_zero 1)
  | cons x xs =>
      have hx : x.isOdd = false := heven
      rw [wordAt_zero (List.cons_ne_nil x xs), Work.ok_bind, List.headD_cons, hx]
      rfl

/-- The test in place ends as the rounds on values do. -/
theorem strongTest_computes_rounds (hbits : w.bits * a.length < sizeLimit)
    (hwords : 2 ≤ wordLen a) (hodd : val a % 2 = 1) (fuel k : Nat) (source : σ) :
    Work.Computes (InPlace.strongTest fuel a k source) (roundsDepth a.length)
      (roundsOutcome (isStrongBase a) fuel (Candidate.ofOdd a).bound k source) := by
  obtain ⟨_, hagree, -⟩ :=
    @strongTestFrom_agree w σ _ _ _ a faithful_ask hbits fuel k source trivial
  exact hagree.followed (strongTest_computes hodd hwords fuel k source)
    (follows_strongTestFrom ask fuel a k source)

/-- The strong test of any number is the textbook test of the witnesses it draws:
on values, and in place if the bits of the number can be counted. -/
theorem strongTest_textbook (fuel : Nat) (a : Limbs w) (k : Nat) (source : σ) :
    IsTextbookTest fuel a k source (Prime.strongTest fuel a k source) ∧
      (w.bits * a.length < sizeLimit →
        IsTextbookTest fuel a k source (InPlace.strongTest fuel a k source)) := by
  refine ⟨strongTest_isTextbookTest fuel a k source, fun hbits => ?_⟩
  exact isTextbookTest_of_rounds (fun hshort => strongTest_oneWord hshort fuel k source)
    (fun hwords heven => strongTest_even hwords heven fuel k source)
    (fun hwords hodd => strongTest_computes_rounds hbits hwords hodd fuel k source)

/-- The fifth Fermat number passes with the witness two, whose thirty-second power is
minus one: eight zero octets are drawn for it, and nothing is left of them. -/
theorem strongTest_textbook_fermat :
    (InPlace.strongTest 1 ([1, 1] : Limbs .w32) 1 (Finite.mk (List.replicate 8 0))
        (zeros 22)).map Prod.fst = .ok (true, ⟨[]⟩) := by
  obtain ⟨-, htest⟩ :=
    strongTest_textbook 1 ([1, 1] : Limbs .w32) 1 (Finite.mk (List.replicate 8 0))
  have hverdicts := (htest (by decide)).odd (by decide) (by decide) 32 1 (by decide) (by decide)
    (zeros 22) (by decide)
  have hdraw : NextWitness 1 ([1, 1] : Limbs .w32) (Finite.mk (List.replicate 8 0)) 2 ⟨[]⟩ :=
    ⟨[0, 0], rfl, rfl⟩
  refine (hverdicts.accepts ⟨[]⟩).mpr ⟨[2], rfl, ⟨⟨[]⟩, hdraw, rfl⟩, ?_⟩
  exact List.forall_mem_singleton.mpr (.inr ⟨5, by decide, by decide⟩)

end CryptoPrimes.InPlace
