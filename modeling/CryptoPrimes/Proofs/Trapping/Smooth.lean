import CryptoPrimes.Proofs.Trapping.Agree
import CryptoPrimes.Proofs.Trapping.Remainder
import CryptoPrimes.Proofs.Trapping.Sieve

/-!
# Smooth numbers

The smoothness test divides a copy of its number by each prime of a part of the
factor base, as often as that leaves no remainder, and asks whether one is left.
The loop of one prime counts nothing.  It ends because a division by two or more
makes a number that is not zero smaller, and leaves it different from zero; so
`DividesOut`, which says only what each turn of the loop reads and writes, has an end
for every such number.

With `n` divisions by `p` the number was `p ^ n` times what is left, and `p` does not
divide that (`DividesOut.value`).  A prime that divides the number is then `p` or
divides what is left, and not both; after the last prime, nothing is left to divide
exactly if every prime divisor was one of those that were tried
(`DividesOutAll.eq_one_iff`).
-/

namespace CryptoPrimes.Trapping

open Limbs

variable {w : Width} {a t u : Limbs w} {p : Word w} {n : Nat}

/-! ## The loop of one prime -/

/-- From `t` the loop for `p` ends with `u` after `n` divisions. -/
inductive DividesOut (p : Word w) : Nat → Limbs w → Limbs w → Prop
  | done {t : Limbs w} {r : Word w} (hrem : modByWord t p = .ok r) (hne : r ≠ 0) :
      DividesOut p 0 t t
  | divide {n : Nat} {t q u : Limbs w} {r : Word w} (hrem : modByWord t p = .ok 0)
      (hdiv : divByWord t p = .ok (q, r)) (hrest : DividesOut p n q u) :
      DividesOut p (n + 1) t u

/-- What the divisions have taken out of the number, and that no more can be. -/
theorem DividesOut.value (hp : p ≠ 0) (h : DividesOut p n t u) :
    val t = p.toNat ^ n * val u ∧ ¬ p.toNat ∣ val u := by
  have hpos := toNat_pos hp
  induction h with
  | @done t r hrem hne =>
      rw [modByWord_eq hp] at hrem
      obtain rfl := Except.ok.inj hrem
      exact ⟨(Nat.one_mul _).symm, mt (remWord_eq_zero_iff t hpos).mpr hne⟩
  | @divide n t q u r hrem hdiv _ ih =>
      rw [modByWord_eq hp] at hrem
      rw [divByWord_eq hp] at hdiv
      obtain ⟨rfl, -⟩ := Prod.mk.inj (Except.ok.inj hdiv)
      have hdvd := (remWord_eq_zero_iff t hpos).mp (Except.ok.inj hrem)
      refine ⟨?_, ih.2⟩
      calc val t = p.toNat * (val t / p.toNat) := (Nat.mul_div_cancel' hdvd).symm
        _ = p.toNat * (p.toNat ^ n * val u) := by rw [← (divWord_spec t hpos).1, ih.1]
        _ = p.toNat ^ (n + 1) * val u := by ring

/-- Dividing a number by one of its divisors leaves one that is not zero. -/
theorem val_divWord_ne_zero (hp : p ≠ 0) (ht : val t ≠ 0) (hrem : remWord t p = 0) :
    val (divWord t p).1 ≠ 0 := by
  have hpos := toNat_pos hp
  have hdvd := (remWord_eq_zero_iff t hpos).mp hrem
  rw [(divWord_spec t hpos).1]
  exact (Nat.div_pos (Nat.le_of_dvd (Nat.pos_of_ne_zero ht) hdvd) hpos).ne'

/-- The loop ends, and the forms that stop where a number does not get smaller never
do: they end with the same number. -/
theorem divideOut_eq (hp : 2 ≤ p.toNat) (ht : val t ≠ 0) :
    divideOut p t = .ok (Prime.divideOut p t) ∧ ∃ n, DividesOut p n t (Prime.divideOut p t) := by
  have hne : p ≠ 0 := by
    rintro rfl
    rw [Word.toNat_zero] at hp
    omega
  induction hvalue : val t using Nat.strongRecOn generalizing t with
  | ind m ih =>
      have hzero := (isZero_eq_false_iff t).mpr ht
      rw [divideOut, modWord_eq t hne, Checked.ok_bind, Prime.divideOut]
      by_cases hrem : remWord t p = 0
      · have hless := val_divWord_lt hp ht
        have hquotient := val_divWord_ne_zero hne ht hrem
        obtain ⟨hrun, n, hloop⟩ := ih _ (hvalue ▸ hless) hquotient rfl
        rw [if_pos hrem, divWordChecked, Checked.require_of hne, Checked.ok_bind,
          dif_pos ⟨hp, hzero, hrem⟩]
        dsimp only [pure, Except.pure]
        rw [Checked.ok_bind, dif_pos hless]
        exact ⟨hrun, n + 1, .divide (hrem ▸ modByWord_eq hne t) (divByWord_eq hne t) hloop⟩
      · rw [if_neg hrem, dif_neg (fun h => hrem h.2.2)]
        exact ⟨rfl, 0, .done (modByWord_eq hne t) hrem⟩

/-! ## All primes -/

/-- The loops of the given primes one after the other, with `n` divisions in all. -/
inductive DividesOutAll : List Nat → Nat → Limbs w → Limbs w → Prop
  | nil (t : Limbs w) : DividesOutAll [] 0 t t
  | cons {p : Nat} {ps : List Nat} {m n : Nat} {t u v : Limbs w}
      (hfirst : DividesOut (Word.ofNat p) m t u) (hrest : DividesOutAll ps n u v) :
      DividesOutAll (p :: ps) (m + n) t v

variable {ps : List Nat}

theorem divideOutAll_eq (hps : ∀ p ∈ ps, p ∈ FactorBase.primes) (ht : val t ≠ 0) :
    divideOutAll ps t = .ok (ps.foldl (fun t p => Prime.divideOut (Word.ofNat p) t) t) ∧
      ∃ n, DividesOutAll ps n t (ps.foldl (fun t p => Prime.divideOut (Word.ofNat p) t) t) := by
  induction ps generalizing t with
  | nil => exact ⟨rfl, 0, .nil t⟩
  | cons p ps ih =>
      rw [List.forall_mem_cons] at hps
      have hp : 2 ≤ (Word.ofNat p : Word w).toNat := by
        have := FactorBase.pos_of_mem hps.1
        rw [Word.toNat_ofNat_of_lt (lt_radix w hps.1)]
        omega
      obtain ⟨hdivide, m, hfirst⟩ := divideOut_eq hp ht
      have hnext : val (Prime.divideOut (Word.ofNat p) t) ≠ 0 := by
        intro hzero
        rw [(hfirst.value (ofNat_prime_ne_zero hps.1)).1, hzero, Nat.mul_zero] at ht
        exact ht rfl
      obtain ⟨hrun, n, hrest⟩ := ih hps.2 hnext
      rw [divideOutAll, hdivide, Checked.ok_bind, List.foldl_cons]
      exact ⟨hrun, m + n, .cons hfirst hrest⟩

/-- No base prime is below three, so the divisions are few. -/
theorem DividesOutAll.le (hps : ∀ p ∈ ps, p ∈ FactorBase.primes) (h : DividesOutAll ps n t u) :
    3 ^ n * val u ≤ val t := by
  induction h with
  | nil t => rw [Nat.pow_zero, Nat.one_mul]
  | @cons p ps m n t u v hfirst _ ih =>
      rw [List.forall_mem_cons] at hps
      have hvalue := (hfirst.value (ofNat_prime_ne_zero hps.1)).1
      rw [Word.toNat_ofNat_of_lt (lt_radix w hps.1)] at hvalue
      calc 3 ^ (m + n) * val v = 3 ^ m * (3 ^ n * val v) := by rw [Nat.pow_add, Nat.mul_assoc]
        _ ≤ p ^ m * val u :=
            Nat.mul_le_mul (Nat.pow_le_pow_left (FactorBase.pos_of_mem hps.1) m) (ih hps.2)
        _ = val t := hvalue.symm

/-- Every prime divisor is one of the given numbers. -/
def FactorsAmong (ps : List Nat) (n : Nat) : Prop := ∀ q, q.Prime → q ∣ n → q ∈ ps

theorem factorsAmong_nil_iff (n : Nat) : FactorsAmong [] n ↔ n = 1 := by
  rw [Nat.eq_one_iff_not_exists_prime_dvd]
  apply forall₂_congr
  intro q _
  rw [List.mem_nil_iff, imp_false]

/-- A prime that is divided out is no divisor any more, and the others are kept. -/
theorem factorsAmong_cons_iff {p m k n : Nat} (hp : p.Prime) (hn : n = p ^ m * k)
    (hk : ¬ p ∣ k) : FactorsAmong (p :: ps) n ↔ FactorsAmong ps k := by
  subst hn
  constructor
  · intro h q hq hdvd
    rcases List.mem_cons.mp (h q hq (hdvd.mul_left _)) with rfl | hmem
    · exact absurd hdvd hk
    · exact hmem
  · intro h q hq hdvd
    rcases (Nat.Prime.dvd_mul hq).mp hdvd with hpow | hrest
    · rw [(Nat.prime_dvd_prime_iff_eq hq hp).mp (hq.dvd_of_dvd_pow hpow)]
      exact List.mem_cons_self
    · exact List.mem_cons_of_mem p (h q hq hrest)

/-- Nothing is left exactly if every prime divisor was tried. -/
theorem DividesOutAll.eq_one_iff (hps : ∀ p ∈ ps, p ∈ FactorBase.primes)
    (h : DividesOutAll ps n t u) : val u = 1 ↔ FactorsAmong ps (val t) := by
  induction h with
  | nil t => exact (factorsAmong_nil_iff _).symm
  | cons hfirst _ ih =>
      rw [List.forall_mem_cons] at hps
      obtain ⟨hvalue, hrest⟩ := hfirst.value (ofNat_prime_ne_zero hps.1)
      rw [Word.toNat_ofNat_of_lt (lt_radix w hps.1)] at hvalue hrest
      have hprime := ((FactorBase.mem_primes_iff _).mp hps.1).1
      rw [ih hps.2, factorsAmong_cons_iff hprime hvalue hrest]

/-! ## The test -/

/-- What is left of a number after the loops of the first `k` base primes. -/
def smoothRest (k : Nat) (a : Limbs w) : Limbs w :=
  (FactorBase.primes.take k).foldl (fun t p => Prime.divideOut (Word.ofNat p) t) a

theorem isSmooth_agree_rest {k : Nat} (hk : k ≤ FactorBase.size) (a : Limbs w) :
    Work.Agree (Prime.isSmooth k a) (isSmooth k a) (Prime.isSmoothDepth a.length)
      (.ok (!isZero a && isWord (smoothRest k a) 1)) := by
  rw [Prime.isSmooth, isSmooth]
  refine .settle_both (Checked.require_of hk _) (Checked.require_of hk _) ?_
  cases hzero : isZero a with
  | true =>
      refine @Work.Agree.withBuffer w _ 0 _ _ _ _ fun _ hbuffer => ⟨a, ?_⟩
      exact .settle (write_whole hbuffer rfl) (by rw [hzero]; exact Work.agree_pure _)
  | false =>
      have ha := (isZero_eq_false_iff a).mp hzero
      have hdivide := (divideOutAll_eq
        (fun p (hp : p ∈ FactorBase.primes.take k) => List.mem_of_mem_take hp) ha).1
      refine @Work.Agree.withBuffer w _ 0 _ _ _ _ fun _ hbuffer => ⟨smoothRest k a, ?_⟩
      refine .settle (write_whole hbuffer rfl) ?_
      rw [hzero]
      exact .settle hdivide (Work.agree_pure _)

theorem isSmooth_agree {k : Nat} (hk : k ≤ FactorBase.size) (a : Limbs w) :
    ∃ answer, Work.Agree (Prime.isSmooth k a) (isSmooth k a) (Prime.isSmoothDepth a.length)
      (.ok answer) :=
  ⟨_, isSmooth_agree_rest hk a⟩

/-- The loops of the test, from a number that is not zero. -/
theorem dividesOutAll_smoothRest (k : Nat) (ha : val a ≠ 0) :
    ∃ n, DividesOutAll (FactorBase.primes.take k) n a (smoothRest k a) :=
  (divideOutAll_eq (fun _ hp => List.mem_of_mem_take hp) ha).2

theorem isSmooth_iff (k : Nat) (a : Limbs w) :
    (!isZero a && isWord (smoothRest k a) 1) = true ↔
      0 < val a ∧ FactorsAmong (FactorBase.primes.take k) (val a) := by
  rw [Bool.and_eq_true, Bool.not_eq_true', isZero_eq_false_iff, Nat.pos_iff_ne_zero]
  apply and_congr_right
  intro ha
  obtain ⟨n, hloops⟩ := dividesOutAll_smoothRest k ha
  rw [isWord_iff, Word.toNat_one, hloops.eq_one_iff fun _ hp => List.mem_of_mem_take hp]

/-- The smoothness test decides whether all prime divisors of a number are among the
first `k` base primes, for numbers of any length and on every scratch of that many
words.  Its loops have no count and no other guard than the remainder; they end after
at most as many divisions as a power of three fits the number. -/
theorem isSmooth_decides (k : Nat) (hk : k ≤ FactorBase.size) (a : Limbs w) :
    ∃ answer, Work.Agree (Prime.isSmooth k a) (isSmooth k a) a.length (.ok answer) ∧
      (answer = true ↔
        0 < val a ∧ ∀ q, q.Prime → q ∣ val a → q ∈ FactorBase.primes.take k) ∧
      (val a = 1 → answer = true) ∧ (val a % 2 = 0 → answer = false) ∧
      (val a ≠ 0 → ∃ n t, DividesOutAll (FactorBase.primes.take k) n a t ∧
        3 ^ n * val t ≤ val a ∧ answer = isWord t 1) := by
  have hmem : ∀ p ∈ FactorBase.primes.take k, p ∈ FactorBase.primes :=
    fun _ hp => List.mem_of_mem_take hp
  have hiff := isSmooth_iff k a
  refine ⟨_, isSmooth_agree_rest hk a, hiff, ?_, ?_, ?_⟩
  · intro hone
    rw [hiff, hone]
    refine ⟨Nat.one_pos, fun q hq hdvd => ?_⟩
    exact absurd (Nat.dvd_one.mp hdvd) hq.ne_one
  · intro heven
    rw [← Bool.not_eq_true, hiff]
    rintro ⟨-, hfactors⟩
    have htwo := hmem 2 (hfactors 2 Nat.prime_two (Nat.dvd_of_mod_eq_zero heven))
    have := FactorBase.pos_of_mem htwo
    omega
  · intro ha
    obtain ⟨n, hloops⟩ := dividesOutAll_smoothRest k ha
    have hzero := (isZero_eq_false_iff a).mpr ha
    refine ⟨n, _, hloops, hloops.le hmem, ?_⟩
    rw [hzero]
    rfl

/-- A number with the prime divisors 3 and 5, and scratch words that hold anything. -/
theorem isSmooth_decides_forty_five :
    (∃ rest, isSmooth 2 ([45, 0] : Limbs .w32) [7, 8] = .ok (true, rest)) ∧
      ∃ rest, isSmooth 1 ([45, 0] : Limbs .w32) [7, 8] = .ok (false, rest) := by
  obtain ⟨two, hrun, hiff, -⟩ := isSmooth_decides 2 (by decide) ([45, 0] : Limbs .w32)
  obtain ⟨one, hrun', hiff', -⟩ := isSmooth_decides 1 (by decide) ([45, 0] : Limbs .w32)
  have hprimes : FactorBase.primes.take 2 = [3, 5] := by decide +kernel
  have hprimes' : FactorBase.primes.take 1 = [3] := by decide +kernel
  have hval : val ([45, 0] : Limbs .w32) = 3 * 3 * 5 := by decide
  have htwo : two = true := by
    rw [hiff, hprimes, hval]
    refine ⟨by decide, fun q hq hdvd => ?_⟩
    rcases (Nat.Prime.dvd_mul hq).mp hdvd with hthree | hfive
    · rcases (Nat.Prime.dvd_mul hq).mp hthree with h | h
      all_goals simp [(Nat.prime_dvd_prime_iff_eq hq Nat.prime_three).mp h]
    · simp [(Nat.prime_dvd_prime_iff_eq hq Nat.prime_five).mp hfive]
  have hone : one = false := by
    rw [← Bool.not_eq_true, hiff', hprimes', hval]
    rintro ⟨-, h⟩
    have hmem := h 5 Nat.prime_five (by decide)
    simp at hmem
  subst htwo hone
  obtain ⟨rest, hresult, -⟩ := hrun.trapping [7, 8] (by decide)
  obtain ⟨rest', hresult', -⟩ := hrun'.trapping [7, 8] (by decide)
  exact ⟨⟨rest, hresult⟩, rest', hresult'⟩

end CryptoPrimes.Trapping
