import Mathlib.Data.Nat.Prime.Basic
import CryptoPrimes.FactorBase
import CryptoPrimes.Proofs.Limbs.Remainder

/-!
# The factor base holds the odd primes up to 8167

* `mem_primes_iff` — trial division up to the root selects exactly the odd
  primes of the range, and there are as many as the base promises
  (`length_primes`);
* `residues_eq` — one pass over the words leaves the residues of the number;
* `isSieved_iff` — the sieve passes a number that none of its primes divides;
* `exists_factor` — a composite odd number below the square of the largest base
  prime has a base prime below its root.
-/

namespace CryptoPrimes.FactorBase

open Limbs

variable {w : Width}

/-! ## The primes -/

theorem mem_trialDivisors_iff (d : Nat) :
    d ∈ trialDivisors ↔ d % 2 = 1 ∧ 3 ≤ d ∧ d ≤ 89 := by
  unfold trialDivisors
  rw [List.mem_range']
  constructor
  · rintro ⟨i, hi, rfl⟩
    omega
  · rintro ⟨hodd, hlo, hhi⟩
    exact ⟨(d - 3) / 2, by omega, by omega⟩

/-- A composite odd number has an odd prime factor up to its root. -/
theorem exists_odd_factor {n : Nat} (hodd : n % 2 = 1) (hlo : 3 ≤ n) (hcomposite : ¬ n.Prime) :
    ∃ p, p.Prime ∧ p % 2 = 1 ∧ p * p ≤ n ∧ p ∣ n := by
  have hfactor := Nat.minFac_prime (by omega : n ≠ 1)
  have hdvd := Nat.minFac_dvd n
  have hroot : n.minFac ^ 2 ≤ n := Nat.minFac_sq_le_self (by omega) hcomposite
  rw [Nat.pow_two] at hroot
  refine ⟨n.minFac, hfactor, ?_, hroot, hdvd⟩
  rcases hfactor.eq_two_or_odd with h2 | h2
  · rw [h2] at hdvd
    omega
  · exact h2

/-- Trial division up to the root decides the odd numbers of the range. -/
theorem isOddPrime_iff {n : Nat} (hodd : n % 2 = 1) (hlo : 3 ≤ n) (hhi : n ≤ largest) :
    isOddPrime n = true ↔ n.Prime := by
  unfold isOddPrime
  rw [List.all_eq_true]
  constructor
  · intro h
    by_contra hcomposite
    obtain ⟨p, hp, hpodd, hroot, hdvd⟩ := exists_odd_factor hodd hlo hcomposite
    have htwo := hp.two_le
    have hple : p ≤ 89 := by
      by_contra hcontra
      -- the square of the next odd number lies beyond the range
      have hlarge : 91 ≤ p := by omega
      have := Nat.mul_le_mul hlarge hlarge
      rw [largest] at hhi
      omega
    have hdivisor := h p ((mem_trialDivisors_iff _).mpr ⟨hpodd, by omega, hple⟩)
    rw [Bool.or_eq_true, decide_eq_true_iff, bne_iff_ne] at hdivisor
    rcases hdivisor with hsmall | hne
    · omega
    · exact hne (Nat.mod_eq_zero_of_dvd hdvd)
  · intro hprime d hd
    obtain ⟨-, hdlo, -⟩ := (mem_trialDivisors_iff d).mp hd
    rw [Bool.or_eq_true, decide_eq_true_iff, bne_iff_ne]
    by_cases hdvd : d ∣ n
    · left
      rcases hprime.eq_one_or_self_of_dvd d hdvd with h1 | h1
      · omega
      · rw [h1]
        nlinarith
    · exact .inr fun h => hdvd (Nat.dvd_of_mod_eq_zero h)

theorem mem_primes_iff (p : Nat) : p ∈ primes ↔ p.Prime ∧ p % 2 = 1 ∧ p ≤ largest := by
  unfold primes
  rw [List.mem_filter, List.mem_range']
  constructor
  · rintro ⟨⟨i, hi, rfl⟩, hp⟩
    have hodd : (3 + 2 * i) % 2 = 1 := by omega
    have hhi : 3 + 2 * i ≤ largest := by
      unfold largest
      omega
    exact ⟨(isOddPrime_iff hodd (by omega) hhi).mp hp, hodd, hhi⟩
  · rintro ⟨hprime, hodd, hhi⟩
    have hlo := hprime.two_le
    refine ⟨⟨(p - 3) / 2, ?_, by omega⟩, (isOddPrime_iff hodd (by omega) hhi).mpr hprime⟩
    rw [largest] at hhi
    omega

theorem length_primes : primes.length = size := by decide +kernel

theorem length_take_primes {k : Nat} (hk : k ≤ size) : (primes.take k).length = k := by
  rw [List.length_take, length_primes]
  omega

/-- The base is ascending. -/
theorem primes_sorted : primes.Pairwise (· < ·) :=
  List.Pairwise.filter _ (List.pairwise_lt_range' 2)

theorem pos_of_mem {p : Nat} (hp : p ∈ primes) : 3 ≤ p := by
  obtain ⟨hprime, hodd, -⟩ := (mem_primes_iff p).mp hp
  have := hprime.two_le
  omega

theorem lt_radix_of_le {n : Nat} (w : Width) (hn : n ≤ largest) : n < 2 ^ w.bits := by
  rw [largest] at hn
  cases w <;> simp only [Width.bits] <;> omega

/-- A composite odd number below the square of the largest base prime has a base
prime up to its root. -/
theorem exists_factor {n : Nat} (hodd : n % 2 = 1) (hlo : 3 ≤ n) (hhi : n < largest * largest)
    (hcomposite : ¬ n.Prime) : ∃ p ∈ primes, p * p ≤ n ∧ p ∣ n := by
  obtain ⟨p, hp, hpodd, hroot, hdvd⟩ := exists_odd_factor hodd hlo hcomposite
  refine ⟨p, (mem_primes_iff p).mpr ⟨hp, hpodd, ?_⟩, hroot, hdvd⟩
  by_contra hcontra
  have := Nat.mul_le_mul (not_le.mp hcontra).le (not_le.mp hcontra).le
  omega

/-- No base prime divides a prime above them all. -/
theorem not_dvd_of_prime {n p : Nat} (hn : n.Prime) (hlarge : largest < n) (hp : p ∈ primes) :
    ¬ p ∣ n := by
  intro hdvd
  obtain ⟨hpprime, -, hple⟩ := (mem_primes_iff p).mp hp
  rcases hn.eq_one_or_self_of_dvd p hdvd with h | h
  · exact hpprime.one_lt.ne' h
  · omega

/-! ## Residues -/

/-- The residues of a number modulo the first `k` base primes. -/
def residueTable (k n : Nat) : List Nat := (primes.take k).map (n % ·)

/-- Each residue meets its own prime. -/
theorem zipWith_map_take (f : Nat → Nat → Nat) (g : Nat → Nat) (k : Nat)
    (ps : List Nat) :
    List.zipWith f ((ps.take k).map g) ps = (ps.take k).map fun p => f (g p) p := by
  induction ps generalizing k with
  | nil => simp
  | cons p ps ih =>
      cases k with
      | zero => rfl
      | succ k =>
          rw [List.take_succ_cons, List.map_cons, List.zipWith_cons_cons, ih, List.map_cons]

/-- One pass over the words computes all residues. -/
theorem residues_eq {k : Nat} (hk : k ≤ size) (a : Limbs w) :
    residues k a = residueTable k (val a) := by
  unfold residues
  rw [residueTable]
  induction a with
  | nil =>
      have hzero : (primes.take k).map (val ([] : Limbs w) % ·) = (primes.take k).map fun _ => 0 :=
        List.map_congr_left fun p _ => Nat.zero_mod p
      rw [List.foldr_nil, hzero, List.map_const', length_take_primes hk]
  | cons x xs ih =>
      rw [List.foldr_cons, ih, zipWith_map_take]
      apply List.map_congr_left
      intro p _
      have hcong : val xs % p * 2 ^ w.bits + x.toNat ≡ val xs * 2 ^ w.bits + x.toNat [MOD p] :=
        ((Nat.mod_modEq _ _).mul_right _).add_right _
      rw [hcong, val_cons, Nat.mul_comm (val xs), Nat.add_comm]

/-- The sieve passes exactly the numbers that none of its primes divides. -/
theorem isSieved_iff (k : Nat) (a : Limbs w) :
    isSieved k a = true ↔ ∀ p ∈ primes.take k, ¬ p ∣ val a := by
  unfold isSieved
  rw [List.all_eq_true]
  apply forall₂_congr
  intro p hp
  have hmem := List.mem_of_mem_take hp
  have hword : (Word.ofNat p : Word w).toNat = p :=
    Word.toNat_ofNat_of_lt (lt_radix_of_le w ((mem_primes_iff p).mp hmem).2.2)
  have hpos : 0 < (Word.ofNat p : Word w).toNat := by
    have := pos_of_mem hmem
    omega
  rw [bne_iff_ne, ne_eq, remWord_eq_zero_iff a hpos, hword]

end CryptoPrimes.FactorBase
