import CryptoPrimes.Proofs.InPlace.Next
import CryptoPrimes.Proofs.Trapping.Remainder

/-!
# One residue in four ways

A remainder by a word is computed by halves or by whole words, left by a division
in place, and read from the table that one pass over the words fills for a whole
part of the factor base.  The four agree for every number and every modulus, and
the sieve asks nothing but whether one of the residues is zero.

A position in the table is a position in the factor base
(`mem_take_primes_iff`), whatever the table held before.
-/

namespace CryptoPrimes.InPlace

open Limbs Trapping

variable {w : Width} {k : Nat}

/-! ## Positions in the factor base -/

theorem prime_eq_ok_iff (i p : Nat) :
    FactorBase.prime i = .ok p ↔ FactorBase.primes[i]? = some p := by
  rw [FactorBase.prime]
  cases FactorBase.primes[i]? with
  | none => simp
  | some q => simp

theorem mem_take_primes_iff (k p : Nat) :
    p ∈ FactorBase.primes.take k ↔ ∃ i < k, FactorBase.prime i = .ok p := by
  simp only [List.mem_iff_getElem?, List.getElem?_take, prime_eq_ok_iff]
  constructor
  · rintro ⟨i, hi⟩
    split at hi
    · next hlt => exact ⟨i, hlt, hi⟩
    · cases hi
  · rintro ⟨i, hlt, hi⟩
    exact ⟨i, by rwa [if_pos hlt]⟩

theorem exists_prime {i : Nat} (hi : i < FactorBase.size) :
    ∃ p ∈ FactorBase.primes, FactorBase.prime i = .ok p := by
  rw [← FactorBase.length_primes] at hi
  exact ⟨_, List.getElem_mem hi, (prime_eq_ok_iff _ _).mpr (List.getElem?_eq_getElem hi)⟩

/-! ## Entries of the table -/

/-- The remainder by a base prime, as a word. -/
theorem remWord_prime (a : Limbs w) {p : Nat} (hp : p ∈ FactorBase.primes) :
    remWord a (Word.ofNat p) = Word.ofNat (val a % p) := by
  have hpos := FactorBase.pos_of_mem hp
  have hword : (Word.ofNat p : Word w).toNat = p := Word.toNat_ofNat_of_lt (lt_radix w hp)
  have hfits : val a % p < 2 ^ w.bits := (Nat.mod_lt _ (by omega)).trans (lt_radix w hp)
  apply Word.ext
  rw [toNat_remWord a (by omega), hword, Word.toNat_ofNat_of_lt hfits]

theorem length_words_residueTable (hk : k ≤ FactorBase.size) (n : Nat) :
    (words w (FactorBase.residueTable k n)).length = k := by
  rw [words, List.length_map, FactorBase.residueTable, List.length_map,
    FactorBase.length_take_primes hk]

theorem getElem?_words_residueTable {i p : Nat} (hi : i < k) (hp : FactorBase.prime i = .ok p)
    (n : Nat) : (words w (FactorBase.residueTable k n))[i]? = some (Word.ofNat (n % p)) := by
  rw [words, FactorBase.residueTable, List.getElem?_map, List.getElem?_map, List.getElem?_take,
    if_pos hi, (prime_eq_ok_iff i p).mp hp]
  rfl

/-- No entry is zero exactly where no prime divides. -/
theorem forall_words_ne_zero_iff (k : Nat) (a : Limbs w) :
    (∀ r ∈ words w (FactorBase.residueTable k (val a)), r ≠ 0) ↔
      ∀ p ∈ FactorBase.primes.take k, ¬ p ∣ val a := by
  simp only [words, FactorBase.residueTable, List.map_map, List.forall_mem_map,
    Function.comp_apply]
  apply forall₂_congr
  intro p hp
  have hmem := List.mem_of_mem_take hp
  have hfits : val a % p < 2 ^ w.bits :=
    (Nat.mod_lt _ (by have := FactorBase.pos_of_mem hmem; omega)).trans (lt_radix w hmem)
  rw [ne_eq, ← Word.toNat_inj, Word.toNat_ofNat_of_lt hfits, Word.toNat_zero,
    Nat.dvd_iff_mod_eq_zero]

/-! ## The four ways -/

/-- The words `out` as the residues of `a` modulo the first `k` base primes, and
`sieved` as what the sieve says about them. -/
structure Residues (k : Nat) (a out : Limbs w) (sieved : Bool) : Prop where
  length : out.length = k
  table : ∀ table : Limbs w, table.length = k → residues table a = .ok out
  entry : ∀ i < k, ∃ p r, FactorBase.prime i = .ok p ∧ out[i]? = some r ∧
    r.toNat = val a % p ∧ ReducesTo a (Word.ofNat p) r
  sieve : Trapping.isSieved k a = .ok sieved
  sieved_iff_residues : sieved = true ↔ ∀ r ∈ out, r ≠ 0
  sieved_iff_divisors : sieved = true ↔ ∀ i < k, ∀ p, FactorBase.prime i = .ok p → ¬ p ∣ val a

theorem residues_remWord (hk : k ≤ FactorBase.size) (a : Limbs w) :
    Residues k a (words w (FactorBase.residueTable k (val a))) (FactorBase.isSieved k a) where
  length := length_words_residueTable hk (val a)
  table _ htable := residues_eq hk htable a
  entry i hi := by
    obtain ⟨p, hmem, hp⟩ := exists_prime (hi.trans_le hk)
    have hentry := getElem?_words_residueTable (w := w) hi hp (val a)
    rw [← remWord_prime a hmem] at hentry
    have hreduces := reducesTo_remWord (ofNat_prime_ne_zero hmem) a
    refine ⟨p, _, hp, hentry, ?_, hreduces⟩
    rw [hreduces.value, Word.toNat_ofNat_of_lt (lt_radix w hmem)]
  sieve := isSieved_eq hk a
  sieved_iff_residues := by rw [FactorBase.isSieved_iff, forall_words_ne_zero_iff]
  sieved_iff_divisors := by
    rw [FactorBase.isSieved_iff]
    constructor
    · intro h i hi p hp
      exact h p ((mem_take_primes_iff k p).mpr ⟨i, hi, hp⟩)
    · intro h p hp
      obtain ⟨i, hi, hprime⟩ := (mem_take_primes_iff k p).mp hp
      exact h i hi p hprime

/-- Reduction by a word, for numbers of any length: both paths, the division in
place and the plain routines end with the remainder, without a step that overflows;
the table holds the same remainders for the base primes, and the sieve passes what
has none that is zero. -/
theorem word_reductions_agree (a : Limbs w) :
    (∀ m : Word w, m ≠ 0 → ∃ r, ReducesTo a m r) ∧
      ∀ k ≤ FactorBase.size, ∃ out sieved, Residues k a out sieved :=
  ⟨fun _ hm => ⟨_, reducesTo_remWord hm a⟩, fun _ hk => ⟨_, _, residues_remWord hk a⟩⟩

/-- The largest modulus of the path by halves and the smallest one beyond it, and the
third base prime, which divides the number. -/
theorem word_reductions_agree_at_switch :
    let a : Limbs .w32 := [0xfffffffe, 0xffffffff]
    modByHalves 0xffff a = .ok 0xfffe ∧ modByWhole 0x10000 a = .ok 0xfffe ∧
      divByWord a 0x10000 = .ok ([0xffffffff, 0xffff], 0xfffe) ∧
      Trapping.isSieved 3 a = .ok false ∧ ∃ out, residues [9, 9, 9] a = .ok out ∧
      out[2]? = some 0 := by
  intro a
  obtain ⟨hreduce, hresidues⟩ := word_reductions_agree a
  obtain ⟨r, hr⟩ := hreduce 0xffff (by decide)
  obtain ⟨s, hs⟩ := hreduce 0x10000 (by decide)
  obtain ⟨out, sieved, hout⟩ := hresidues 3 (by decide)
  obtain ⟨q, hlength, hquot, hdiv, -⟩ := hs.division
  obtain ⟨p, t, hp, ht, htval, -⟩ := hout.entry 2 (by decide)
  obtain rfl : p = 7 := Except.ok.inj (hp.symm.trans (by decide +kernel))
  have hsieved : sieved = false := by
    rw [← Bool.not_eq_true, hout.sieved_iff_divisors]
    intro h
    exact h 2 (by decide) 7 hp (by decide)
  have hrval : r = 0xfffe := Word.ext (hr.value.trans (by decide))
  have hsval : s = 0xfffe := Word.ext (hs.value.trans (by decide))
  have hqval : q = [0xffffffff, 0xffff] := val_inj hlength (hquot.trans (by decide))
  have htzero : t = 0 := Word.ext (htval.trans (by decide))
  subst hrval hsval hqval htzero hsieved
  exact ⟨hr.byHalves (by decide), hs.byWhole, hdiv, hout.sieve, out, hout.table _ rfl, ht⟩

end CryptoPrimes.InPlace
