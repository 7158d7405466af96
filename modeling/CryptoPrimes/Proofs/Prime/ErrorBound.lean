import CryptoPrimes.Proofs.Prime.Extend
import CryptoPrimes.Proofs.Prime.StrongBases
import Mathlib.Data.Fintype.BigOperators

/-!
# How often the strong test errs

The verdict of the strong test is decided by its draws (`strongTest_of_drawn`): it is
true if the number is strong to every witness.  Any witnesses can be drawn
(`drawnBelow_toOctets`).  So the witnesses that let a number pass are counted by its
strong bases, and for a composite number of two words or more at most one tuple in
`4 ^ k` of `k` witnesses does (`strongTest_error_bound`).
-/

namespace CryptoPrimes.Prime

open Limbs

variable {w : Width} {σ : Type} [ByteSource σ]

/-! ## Draws and verdicts -/

/-- Numbers below the bound are drawn in the order in which their octets come. -/
theorem drawnBelow_toOctets {bound : Limbs w} {fuel : Nat} (hfuel : 0 < fuel)
    {xs : List (Limbs w)} (hxs : ∀ x ∈ xs, x.length = bound.length ∧ val x < val bound) :
    drawnBelow fuel bound xs.length (Finite.mk (xs.flatMap toOctets)) = (xs, .ok true) := by
  induction xs with
  | nil => rfl
  | cons x xs ih =>
      obtain ⟨⟨hlen, hlt⟩, hrest⟩ := List.forall_mem_cons.mp hxs
      rw [List.length_cons, List.flatMap_cons, drawnBelow, sampleBelow_toOctets hlen hlt hfuel]
      dsimp only
      rw [ih hrest]

/-- The rounds answer what their draws decide. -/
theorem roundsOutcome_of_drawn (strong : Nat → Bool) {fuel rounds : Nat} {bound : Limbs w}
    {source : σ} {xs : List (Limbs w)}
    (h : drawnBelow fuel bound rounds source = (xs, .ok true)) :
    ∃ rest, roundsOutcome strong fuel bound rounds source =
      .ok (xs.all fun x => strong (val x + 2), rest) := by
  induction rounds generalizing source xs with
  | zero =>
      obtain ⟨rfl, -⟩ := Prod.mk.inj h
      exact ⟨source, rfl⟩
  | succ rounds ih =>
      rw [drawnBelow] at h
      rw [roundsOutcome]
      rcases sampleBelow_cases fuel bound source with hdraw | ⟨rest, hdraw⟩ | ⟨x, rest, hdraw, -⟩
      · rw [hdraw] at h
        simp at h
      · rw [hdraw] at h
        simp at h
      · rw [hdraw] at h ⊢
        obtain ⟨rfl, hserved⟩ := Prod.mk.inj h
        rw [List.all_cons]
        dsimp only
        cases hx : strong (val x + 2) with
        | false => exact ⟨rest, rfl⟩
        | true => exact ih (Prod.ext rfl hserved)

/-- The successive draws from the source are those for the witnesses `ws`, each less
two. -/
def DrawsWitnesses (fuel : Nat) (a : Limbs w) {k : Nat} (ws : Fin k → Nat) (source : σ) : Prop :=
  ∃ xs : List (Limbs w), drawnBelow fuel (ofNat a.length (val a - 3)) k source = (xs, .ok true) ∧
    xs.map val = List.ofFn fun i => ws i - 2

section Verdict

variable {a : Limbs w} (hodd : val a % 2 = 1) (hwords : 2 ≤ wordLen a)

include hwords

theorem nine_lt_of_two_words : 9 < val a := by
  have hradix : 9 < 2 ^ w.bits := by cases w <;> decide
  exact lt_of_lt_of_le hradix (radix_le_of_two_words hwords)

include hodd

/-- The bound of the draws as a number of its own. -/
theorem bound_eq_ofNat : (Candidate.ofOdd a).bound = ofNat a.length (val a - 3) := by
  have hlarge := nine_lt_of_two_words hwords
  obtain ⟨hlen, hval⟩ := ofOdd_bound hodd (by omega)
  exact eq_ofNat hlen hval

/-- The verdict on a source is decided by the witnesses that are drawn from it. -/
theorem strongTest_of_drawn {scratch : Limbs w} (hdepth : roundsDepth a.length ≤ scratch.length)
    {fuel k : Nat} {ws : Fin k → Nat} (hws : ∀ i, 2 ≤ ws i) {source : σ}
    (hdrawn : DrawsWitnesses fuel a ws source) :
    ∃ source' rest, strongTest fuel a k source scratch =
      .ok ((decide (∀ i, isStrongBase a (ws i) = true), source'), rest) := by
  obtain ⟨xs, hxs, hvalues⟩ := hdrawn
  rw [← bound_eq_ofNat hodd hwords] at hxs
  obtain ⟨source', hrounds⟩ := roundsOutcome_of_drawn (isStrongBase a) hxs
  have hall : (xs.all fun x => isStrongBase a (val x + 2)) =
      decide (∀ i, isStrongBase a (ws i) = true) := by
    have hmap : (xs.all fun x => isStrongBase a (val x + 2)) =
        (xs.map val).all fun v => isStrongBase a (v + 2) := by
      rw [List.all_map]
      rfl
    rw [hmap, hvalues, Bool.eq_iff_iff, List.all_eq_true, decide_eq_true_iff,
      List.forall_mem_ofFn_iff]
    exact forall_congr' fun i => by rw [Nat.sub_add_cancel (hws i)]
  have hrun := strongTest_computes hodd hwords fuel k source scratch hdepth
  rw [hrounds, hall] at hrun
  obtain ⟨rest, hrun, -, -⟩ := hrun
  exact ⟨source', rest, hrun⟩

omit hodd in
/-- Witnesses in range are drawn from some octets. -/
theorem exists_drawsWitnesses {fuel k : Nat} (hfuel : 0 < fuel) {ws : Fin k → Nat}
    (hws : ∀ i, 2 ≤ ws i ∧ ws i ≤ val a - 2) :
    ∃ octets, DrawsWitnesses fuel a ws (Finite.mk octets) := by
  have hlarge := nine_lt_of_two_words hwords
  have hlt := val_lt a
  have hbound : val (ofNat a.length (val a - 3) : Limbs w) = val a - 3 :=
    val_ofNat_of_lt (by omega)
  have hval : ∀ i, val (ofNat a.length (ws i - 2) : Limbs w) = ws i - 2 := by
    intro i
    have := hws i
    exact val_ofNat_of_lt (by omega)
  have hrange : ∀ x ∈ List.ofFn fun i => (ofNat a.length (ws i - 2) : Limbs w),
      x.length = (ofNat a.length (val a - 3) : Limbs w).length ∧
        val x < val (ofNat a.length (val a - 3) : Limbs w) := by
    rw [List.forall_mem_ofFn_iff]
    intro i
    have := hws i
    rw [hval, hbound, length_ofNat, length_ofNat]
    omega
  have hdrawn := drawnBelow_toOctets hfuel hrange
  rw [List.length_ofFn] at hdrawn
  refine ⟨_, _, hdrawn, ?_⟩
  rw [List.map_ofFn]
  congr 1
  funext i
  exact hval i

end Verdict

/-! ## The error bound -/

/-- The error bound of the strong test, for an odd composite number of two words or
more.  Of all tuples of `k` witnesses from 2 to `val a - 2`, at most one in `4 ^ k` lets
it pass.  Here `accepted` are the tuples that do: every tuple can be drawn, and on every
source that serves its draws the test returns whether it is among them. -/
theorem strongTest_error_bound (a scratch : Limbs w) (fuel k : Nat) (hodd : val a % 2 = 1)
    (hcomposite : ¬ (val a).Prime) (hwords : 2 ≤ wordLen a)
    (hdepth : roundsDepth a.length ≤ scratch.length) :
    let witnesses := Fintype.piFinset fun _ : Fin k => Finset.Icc 2 (val a - 2)
    witnesses.card = (val a - 3) ^ k ∧
    ∃ accepted ⊆ witnesses, 4 ^ k * accepted.card ≤ (val a - 3) ^ k ∧
      ∀ ws ∈ witnesses,
        (1 ≤ fuel → ∃ octets, DrawsWitnesses fuel a ws (Finite.mk octets)) ∧
        ∀ {σ : Type} [ByteSource σ] (source : σ), DrawsWitnesses fuel a ws source →
          ∃ source' rest, strongTest fuel a k source scratch =
            .ok ((decide (ws ∈ accepted), source'), rest) := by
  intro witnesses
  have hlarge := nine_lt_of_two_words hwords
  obtain ⟨hsplit, hpart, hpos⟩ := ofOdd_split hodd (by omega)
  have hbases := four_mul_card_strongBases_le hsplit hpart hpos hodd hlarge hcomposite
  have hcard : witnesses.card = (val a - 3) ^ k := by
    rw [Fintype.card_piFinset_const, Nat.card_Icc,
      show val a - 2 + 1 - 2 = val a - 3 by omega]
  refine ⟨hcard, Fintype.piFinset fun _ => strongBases (val a) (Candidate.ofOdd a).twos
    (val (Candidate.ofOdd a).oddPart), ?_, ?_, ?_⟩
  · exact Fintype.piFinset_subset _ _ fun _ => Finset.filter_subset _ _
  · rw [Fintype.card_piFinset_const, ← mul_pow]
    exact Nat.pow_le_pow_left hbases k
  · intro ws hws
    have hrange : ∀ i, 2 ≤ ws i ∧ ws i ≤ val a - 2 := by
      intro i
      exact Finset.mem_Icc.mp (Fintype.mem_piFinset.mp hws i)
    refine ⟨fun hfuel => exists_drawsWitnesses hwords hfuel hrange, ?_⟩
    intro σ _ source hdrawn
    obtain ⟨source', rest, hrun⟩ :=
      strongTest_of_drawn hodd hwords hdepth (fun i => (hrange i).1) hdrawn
    refine ⟨source', rest, ?_⟩
    rw [hrun]
    -- in range, the accepted tuples are those of strong bases
    have hverdict : (∀ i, isStrongBase a (ws i) = true) ↔
        ws ∈ Fintype.piFinset fun _ : Fin k => strongBases (val a) (Candidate.ofOdd a).twos
          (val (Candidate.ofOdd a).oddPart) := by
      rw [Fintype.mem_piFinset]
      apply forall_congr'
      intro i
      rw [strongBases, Finset.mem_filter, Finset.mem_Icc, isStrongBase, decide_eq_true_iff]
      exact (and_iff_right (hrange i)).symm
    rw [decide_eq_decide.mpr hverdict]

/-- A product of two primes, in two words: at most one pair of witnesses in sixteen lets
it pass. -/
theorem strongTest_error_bound_two_words :
    val ([1, 1] : Limbs .w32) % 2 = 1 ∧ ¬ (val ([1, 1] : Limbs .w32)).Prime ∧
      2 ≤ wordLen ([1, 1] : Limbs .w32) ∧
      roundsDepth ([1, 1] : Limbs .w32).length ≤ (zeros 22 : Limbs .w32).length ∧
      ∃ accepted ⊆ Fintype.piFinset fun _ : Fin 2 => Finset.Icc 2 (val ([1, 1] : Limbs .w32) - 2),
        4 ^ 2 * accepted.card ≤ (val ([1, 1] : Limbs .w32) - 3) ^ 2 ∧
        ∀ ws ∈ Fintype.piFinset fun _ : Fin 2 => Finset.Icc 2 (val ([1, 1] : Limbs .w32) - 2),
          ∃ octets source' rest, strongTest 1 ([1, 1] : Limbs .w32) 2 (Finite.mk octets)
            (zeros 22) = .ok ((decide (ws ∈ accepted), source'), rest) := by
  have hodd : val ([1, 1] : Limbs .w32) % 2 = 1 := by decide
  have hcomposite : ¬ (val ([1, 1] : Limbs .w32)).Prime := by
    rw [show val ([1, 1] : Limbs .w32) = 4294967297 by decide]
    exact Nat.not_prime_of_dvd_of_lt (by decide : 641 ∣ 4294967297) (by decide) (by decide)
  have hwords : 2 ≤ wordLen ([1, 1] : Limbs .w32) := by decide
  have hdepth : roundsDepth ([1, 1] : Limbs .w32).length ≤ (zeros 22 : Limbs .w32).length := by
    decide
  obtain ⟨-, accepted, hsubset, hcount, hverdict⟩ :=
    strongTest_error_bound ([1, 1] : Limbs .w32) (zeros 22) 1 2 hodd hcomposite hwords hdepth
  refine ⟨hodd, hcomposite, hwords, hdepth, accepted, hsubset, hcount, ?_⟩
  -- with the bound hidden, no step unfolds the interval
  generalize val ([1, 1] : Limbs .w32) - 2 = top at hverdict ⊢
  intro ws hws
  obtain ⟨hdrawn, hrun⟩ := hverdict ws hws
  obtain ⟨octets, hoctets⟩ := hdrawn le_rfl
  obtain ⟨source', rest, hanswer⟩ := hrun (Finite.mk octets) hoctets
  exact ⟨octets, source', rest, hanswer⟩

end CryptoPrimes.Prime
