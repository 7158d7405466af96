import CryptoPrimes.Prime.Extend
import CryptoPrimes.Proofs.Limbs.Bits
import CryptoPrimes.Proofs.Limbs.Division
import CryptoPrimes.Proofs.Prime.Next

/-!
# What the search for a prime with a given factor finds

The two divisions give the least and the greatest multiplier `r` for which
`2 * r * q + 1` has exactly `bits` bits (`multipliers_computes`,
`size_candidate`), so every draw yields a candidate of the right length and the
check on it never fails.

`drawnBelow` lists the successive draws.  The trials go through this list, one
after the other (`trial_step`, `runTrials_computes`).  `FindsWithFactor` is what the
report of such a search says, and `extendPrime_findsWithFactor` that the whole search
reports it.
-/

namespace CryptoPrimes.Prime

open Limbs

variable {w : Width} {σ : Type} [ByteSource σ]

/-! ## The range of multipliers -/

/-- The least multiplier: the quotient of `2 ^ (bits - 1) - 1` by `2 * q`,
rounded up, and at least one. -/
def leastMultiplier (bits q : Nat) : Nat :=
  max 1 ((2 ^ (bits - 1) - 1 + (2 * q - 1)) / (2 * q))

/-- The greatest multiplier: the quotient of `2 ^ bits - 2` by `2 * q`. -/
def greatestMultiplier (bits q : Nat) : Nat := (2 ^ bits - 2) / (2 * q)

/-- A quotient rounded up, from quotient and remainder. -/
theorem ceil_div_eq {x d : Nat} (hd : 0 < d) :
    (x + (d - 1)) / d = if x % d = 0 then x / d else x / d + 1 := by
  have hx := Nat.div_add_mod x d
  have hlt := Nat.mod_lt x hd
  split
  · next hzero =>
      have hround : x + (d - 1) = d * (x / d) + (d - 1) := by omega
      rw [hround, Nat.mul_add_div hd, Nat.div_eq_of_lt (by omega : d - 1 < d), Nat.add_zero]
  · next hne =>
      have hround : x + (d - 1) = d * (x / d + 1) + (x % d - 1) := by
        have hsucc : d * (x / d + 1) = d * (x / d) + d := Nat.mul_succ _ _
        omega
      rw [hround, Nat.mul_add_div hd, Nat.div_eq_of_lt (by omega : x % d - 1 < d), Nat.add_zero]

theorem leastMultiplier_pos (bits q : Nat) : 0 < leastMultiplier bits q :=
  lt_of_lt_of_le Nat.one_pos (Nat.le_max_left _ _)

/-- Between the two multipliers the length is exact. -/
theorem size_candidate {bits q r : Nat} (hbits : 2 ≤ bits) (hq : 0 < q)
    (hlo : leastMultiplier bits q ≤ r) (hhi : r ≤ greatestMultiplier bits q) :
    Nat.size (2 * r * q + 1) = bits := by
  obtain ⟨b, rfl⟩ := Nat.exists_eq_add_of_le' hbits
  have hstep : 2 * r * q = r * (2 * q) := by ring
  have hlower : 2 ^ (b + 1) - 1 ≤ r * (2 * q) := by
    have hceil : (2 ^ (b + 1) - 1 + (2 * q - 1)) / (2 * q) ≤ r := (Nat.le_max_right _ _).trans hlo
    have hround := (Nat.div_le_iff_le_mul_add_pred (by omega : 0 < 2 * q)).mp hceil
    rw [Nat.mul_comm (2 * q) r] at hround
    omega
  have hupper : r * (2 * q) ≤ 2 ^ (b + 2) - 2 :=
    (Nat.le_div_iff_mul_le (by omega)).mp hhi
  have hpow : 2 ^ (b + 2) = 2 * 2 ^ (b + 1) := Nat.pow_succ'
  have hpos : 2 ≤ 2 ^ (b + 1) := by
    calc 2 = 2 ^ 1 := rfl
      _ ≤ 2 ^ (b + 1) := Nat.pow_le_pow_right (by decide) (by omega)
  rw [hstep]
  apply le_antisymm
  · rw [Nat.size_le]
    omega
  · have hlt : b + 1 < Nat.size (r * (2 * q) + 1) := by
      rw [Nat.lt_size]
      omega
    omega

theorem powerLess_eq {m : Nat} (bit : Nat) {x : Word w} (hbit : bit < m * w.bits)
    (hx : x.toNat ≤ 2 ^ bit) :
    ∃ a : Limbs w, powerLess m bit x = .ok a ∧ a.length = m ∧ val a = 2 ^ bit - x.toNat := by
  obtain ⟨power, hset, hlen, hval⟩ := setBit_zeros hbit
  refine ⟨(subWord power x).1, ?_, (length_subWord _ _).trans hlen, ?_⟩
  · unfold powerLess
    rw [hset]
    rfl
  · rw [val_subWord_of_le (by rw [hval]; exact hx), hval]

/-- A length of at least two bits and a factor other than zero, for which `m`
words hold twice the factor and the power of two above the bits. -/
structure Fits (w : Width) (m bits q : Nat) : Prop where
  two_le_bits : 2 ≤ bits
  bits_lt : bits < m * w.bits
  q_pos : 0 < q
  step_lt : 2 * q < 2 ^ (w.bits * m)

theorem Fits.pow_le {m bits q : Nat} (h : Fits w m bits q) : 2 ^ bits ≤ 2 ^ (w.bits * m) :=
  Nat.pow_le_pow_right (by decide) (by rw [Nat.mul_comm]; exact h.bits_lt.le)

theorem Fits.pow_eq {m bits q : Nat} (h : Fits w m bits q) :
    2 ≤ 2 ^ (bits - 1) ∧ 2 ^ bits = 2 * 2 ^ (bits - 1) := by
  have htwo := h.two_le_bits
  constructor
  · calc 2 = 2 ^ 1 := rfl
      _ ≤ 2 ^ (bits - 1) := Nat.pow_le_pow_right (by decide) (by omega)
  · rw [← Nat.pow_succ']
    congr 1
    omega

/-- The room and the ends of the range of multipliers for the factor `q`. -/
structure Multipliers.Spans (range : Multipliers w) (m bits q : Nat) : Prop where
  step_length : range.step.length = m
  step_val : val range.step = 2 * q
  least_length : range.least.length = m
  least_val : val range.least = leastMultiplier bits q
  greatest_length : range.greatest.length = m
  greatest_val : val range.greatest = greatestMultiplier bits q

/-- The steps from the draw `x` to its candidate, each without a lost carry. -/
structure Multipliers.Exact (range : Multipliers w) (q : Nat) (x : Limbs w) : Prop where
  sum_carry : (addCarry x range.least false).2 = false
  sum_val : val (addCarry x range.least false).1 = val range.least + val x
  product_val : val (mul (addCarry x range.least false).1 range.step) =
    2 * (val range.least + val x) * q
  next_carry : (addWord (mul (addCarry x range.least false).1 range.step) 1).2 = 0
  candidate_val : val (range.candidate x) = 2 * (val range.least + val x) * q + 1

/-- A quotient and a remainder, rounded up. -/
theorem roundUp_spec {low rem : Limbs w} {x d : Nat} (hd : 0 < d) (hlow : val low = x / d)
    (hrem : val rem = x % d) (hx : x + 1 < 2 ^ (w.bits * low.length)) :
    (if isZero rem then low else (addWord low 1).1).length = low.length ∧
      val (if isZero rem then low else (addWord low 1).1) = (x + (d - 1)) / d := by
  rw [ceil_div_eq hd]
  by_cases hzero : x % d = 0
  · rw [if_pos (isZero_iff.mpr (hrem.trans hzero)), if_pos hzero]
    exact ⟨rfl, hlow⟩
  · have hle := Nat.div_le_self x d
    obtain ⟨hsum, -⟩ := val_addWord_of_lt (a := low) (x := 1) (by rw [Word.toNat_one]; omega)
    rw [if_neg (fun h => hzero (hrem.symm.trans (isZero_iff.mp h))), if_neg hzero, hsum, hlow,
      Word.toNat_one]
    exact ⟨length_addWord _ _, rfl⟩

/-- A number, or one in the place of zero. -/
theorem atLeastOne_spec {a : Limbs w} (hne : a.length ≠ 0) :
    (if isZero a then one a.length else a).length = a.length ∧
      val (if isZero a then one a.length else a) = max 1 (val a) := by
  by_cases hzero : val a = 0
  · rw [if_pos (isZero_iff.mpr hzero), val_one hne, hzero]
    exact ⟨length_one _, rfl⟩
  · rw [if_neg (fun h => hzero (isZero_iff.mp h))]
    exact ⟨rfl, by omega⟩

/-- Twice the factor, in the room of the multipliers. -/
theorem doubled_spec {m : Nat} {q : Limbs w} (hlen : q.length ≤ m)
    (hroom : 2 * val q < 2 ^ (w.bits * m)) :
    (shlWithin (extend q m) 1).1.length = m ∧ val (shlWithin (extend q m) 1).1 = 2 * val q := by
  have hextend : (extend q m).length = m := length_extend hlen
  refine ⟨(length_shlWithin _ _).trans hextend, ?_⟩
  rw [val_shlWithin_of_lt (by cases w <;> decide)
    (by rwa [hextend, val_extend, Nat.pow_one, Nat.mul_comm]), val_extend, Nat.pow_one,
    Nat.mul_comm]

/-- The multipliers are computed in their room, through two divisions. -/
theorem multipliers_computes {m bits : Nat} {q : Limbs w} (hlen : q.length ≤ m)
    (hfits : Fits w m bits (val q)) :
    ∃ range : Multipliers w, Work.Computes (multipliers m bits q) (divRemDepth m m) (.ok range) ∧
      range.Spans m bits (val q) := by
  have hq := hfits.q_pos
  have hbits := hfits.two_le_bits
  have hbitslt := hfits.bits_lt
  have hroom := hfits.pow_le
  obtain ⟨htwo, hdouble⟩ := hfits.pow_eq
  have hmne : m ≠ 0 := by
    rintro rfl
    simp at hbitslt
  obtain ⟨hsteplen, hstep⟩ := doubled_spec hlen hfits.step_lt
  obtain ⟨lower, hlower, hlowerlen, hlowerval⟩ := powerLess_eq (w := w) (m := m)
    (bits - 1) (x := 1) (by omega) (by rw [Word.toNat_one]; omega)
  obtain ⟨upper, hupper, hupperlen, hupperval⟩ := powerLess_eq (w := w) (m := m)
    bits (x := 2) hbitslt (by rw [Word.toNat_two]; omega)
  -- both ends are divided by twice the factor, and their quotients fit
  have hstepne : val (shlWithin (extend q m) 1).1 ≠ 0 := by
    rw [hstep]
    omega
  have hlowroom : wordLen lower ≤ m := (wordLen_le_length lower).trans_eq hlowerlen
  have hhighroom : wordLen upper ≤ m := (wordLen_le_length upper).trans_eq hupperlen
  obtain ⟨low, lowRem, hlow, hlowlen, hlowval, -, hlowRem⟩ := divRem_computes hstepne hlowroom
  obtain ⟨high, highRem, hhigh, hhighlen, hhighval, -, -⟩ := divRem_computes hstepne hhighroom
  rw [hsteplen, hlowerlen] at hlow
  rw [hsteplen, hupperlen] at hhigh
  rw [hstep, hlowerval, Word.toNat_one] at hlowval hlowRem
  rw [hstep, hupperval, Word.toNat_two] at hhighval
  obtain ⟨hroundlen, hround⟩ := roundUp_spec (by omega) hlowval hlowRem (by rw [hlowlen]; omega)
  obtain ⟨hleastlen, hleast⟩ := atLeastOne_spec
    (a := if isZero lowRem then low else (addWord low 1).1) (by rw [hroundlen, hlowlen]; exact hmne)
  rw [hroundlen, hlowlen] at hleastlen hleast
  refine ⟨⟨(shlWithin (extend q m) 1).1,
      if isZero (if isZero lowRem then low else (addWord low 1).1) then one m
        else if isZero lowRem then low else (addWord low 1).1, high⟩, ?_,
    hsteplen, hstep, hleastlen, hleast.trans (by rw [hround, leastMultiplier]), hhighlen, hhighval⟩
  unfold multipliers
  refine Work.Computes.lift_bind hlower (hlow.bind ?_)
  refine Work.Computes.lift_bind hupper (hhigh.bind ?_)
  exact (Work.computes_pure _).mono (Nat.zero_le _)

/-! ## One trial -/

section Trial

variable {range : Multipliers w} {m bits q : Nat} (hspans : range.Spans m bits q)
  (hfits : Fits w m bits q)

include hspans hfits

/-- The greatest multiplier leaves room for one more in the working numbers. -/
theorem greatest_lt : val range.greatest + 1 < 2 ^ (w.bits * m) := by
  have hroom := hfits.pow_le
  obtain ⟨htwo, hdouble⟩ := hfits.pow_eq
  have hle : val range.greatest ≤ 2 ^ bits - 2 := by
    rw [hspans.greatest_val]
    exact Nat.div_le_self _ _
  omega

/-- How many multipliers there are, for a range that is not empty. -/
theorem count_spec (hle : leastMultiplier bits q ≤ greatestMultiplier bits q) :
    range.count.length = m ∧
      val range.count = greatestMultiplier bits q - leastMultiplier bits q + 1 := by
  have hlen : range.greatest.length = range.least.length :=
    hspans.greatest_length.trans hspans.least_length.symm
  have hgreatest := greatest_lt hspans hfits
  rw [hspans.greatest_val] at hgreatest
  have hdlen := length_subBorrow hlen false
  obtain ⟨hdiff, -⟩ := val_subBorrow_of_le hlen
    (by rw [hspans.least_val, hspans.greatest_val]; exact hle)
  rw [hspans.least_val, hspans.greatest_val] at hdiff
  obtain ⟨hsum, -⟩ := val_addWord_of_lt
    (a := (subBorrow range.greatest range.least false).1) (x := 1)
    (by rw [Word.toNat_one, hdlen, hspans.greatest_length]; omega)
  rw [Word.toNat_one, hdiff] at hsum
  exact ⟨(length_addWord _ _).trans (hdlen.trans hspans.greatest_length), hsum⟩

/-- The bound of the draws as a number of its own. -/
theorem count_eq (hle : leastMultiplier bits q ≤ greatestMultiplier bits q) :
    range.count = ofNat m (greatestMultiplier bits q - leastMultiplier bits q + 1) := by
  obtain ⟨hlen, hval⟩ := count_spec hspans hfits hle
  exact eq_ofNat hlen hval

/-- The candidate for a draw in range is computed without a lost carry. -/
theorem exact_of_draw {x : Limbs w} (hxlen : x.length = m)
    (hx : leastMultiplier bits q + val x ≤ greatestMultiplier bits q) :
    range.Exact q x := by
  have hlen : x.length = range.least.length := hxlen.trans hspans.least_length.symm
  have hslen := length_addCarry hlen false
  have hgreatest := greatest_lt hspans hfits
  rw [← hspans.least_val, ← hspans.greatest_val] at hx
  obtain ⟨hsum, hcarry⟩ := val_addCarry_of_lt hlen (by rw [hxlen]; omega)
  rw [Nat.add_comm] at hsum
  have hproduct : val (mul (addCarry x range.least false).1 range.step) =
      2 * (val range.least + val x) * q := by
    rw [val_mul, hsum, hspans.step_val]
    ring
  have hbound : 2 * (val range.least + val x) * q ≤ 2 ^ bits - 2 := by
    rw [hspans.greatest_val] at hx
    calc 2 * (val range.least + val x) * q
        = (val range.least + val x) * (2 * q) := by ring
      _ ≤ greatestMultiplier bits q * (2 * q) := Nat.mul_le_mul_right _ hx
      _ ≤ 2 ^ bits - 2 := Nat.div_mul_le_self _ _
  have hroom := hfits.pow_le
  obtain ⟨htwo, hdouble⟩ := hfits.pow_eq
  have hwide : 2 ^ (w.bits * m) ≤ 2 ^ (w.bits * (m + m)) := radix_le w (by omega)
  obtain ⟨hnext, hnextCarry⟩ := val_addWord_of_lt
    (a := mul (addCarry x range.least false).1 range.step) (x := 1)
    (by rw [Word.toNat_one, hproduct, length_mul, hslen, hxlen, hspans.step_length]; omega)
  rw [hproduct, Word.toNat_one] at hnext
  exact ⟨hcarry, hsum, hproduct, hnextCarry, hnext⟩

omit hfits in
theorem length_candidate {x : Limbs w} (hxlen : x.length = m) :
    (range.candidate x).length = m + m := by
  have hlen : x.length = range.least.length := hxlen.trans hspans.least_length.symm
  unfold Multipliers.candidate
  rw [length_addWord, length_mul, length_addCarry hlen, hxlen,
    hspans.step_length]

/-- Every draw gives a candidate of the length asked for. -/
theorem bitLen_candidate (hle : leastMultiplier bits q ≤ greatestMultiplier bits q)
    {x : Limbs w} (hxlen : x.length = m) (hx : val x < val range.count) :
    val (range.candidate x) = 2 * (leastMultiplier bits q + val x) * q + 1 ∧
      bitLen (range.candidate x) = bits := by
  rw [(count_spec hspans hfits hle).2] at hx
  have hval := (exact_of_draw hspans hfits hxlen (by omega)).candidate_val
  rw [hspans.least_val] at hval
  refine ⟨hval, ?_⟩
  rw [bitLen_eq_size, hval]
  exact size_candidate hfits.two_le_bits hfits.q_pos (by omega) (by omega)

omit hfits in
/-- A candidate of that length is not cut by the words of the result. -/
theorem take_candidate {n : Nat} {x : Limbs w} (hbitLen : bitLen (range.candidate x) = bits)
    (hn : bits ≤ n * w.bits) (hroom : n ≤ m) (hxlen : x.length = m) :
    ((range.candidate x).take n).length = n ∧
      val ((range.candidate x).take n) = val (range.candidate x) := by
  have hfits : val (range.candidate x) < 2 ^ (w.bits * n) := by
    rw [bitLen_eq_size] at hbitLen
    apply lt_of_lt_of_le (Nat.lt_size_self _)
    rw [hbitLen]
    exact Nat.pow_le_pow_right (by decide) (by rw [Nat.mul_comm]; exact hn)
  refine ⟨?_, val_take_of_lt hfits⟩
  rw [List.length_take, length_candidate hspans hxlen]
  omega

end Trial

/-- The sieve of a drawn candidate decides whether it survives. -/
theorem survivesSieve_iff (k : Nat) (a : Limbs w) :
    survivesSieve k a = true ↔ Survives k (val a) := by
  unfold survivesSieve
  rw [Bool.or_eq_true, isSmall_iff, FactorBase.isSieved_iff, Survives]

/-! ## All trials -/

/-- The successive draws below `bound`, at most `count`, and whether all of them
were served. -/
def drawnBelow (fuel : Nat) (bound : Limbs w) : Nat → σ → List (Limbs w) × Checked Bool
  | 0, _ => ([], .ok true)
  | count + 1, source =>
    match sampleBelow fuel bound.length bound source with
    | .error fault => ([], .error fault)
    | .ok (none, _) => ([], .ok false)
    | .ok (some x, source) =>
      let rest := drawnBelow fuel bound count source
      (x :: rest.1, rest.2)

theorem length_drawnBelow (fuel : Nat) (bound : Limbs w) (count : Nat) (source : σ) :
    (drawnBelow fuel bound count source).1.length ≤ count := by
  induction count generalizing source with
  | zero => exact le_rfl
  | succ count ih =>
      unfold drawnBelow
      split
      · exact Nat.zero_le _
      · exact Nat.zero_le _
      · exact Nat.succ_le_succ (ih _)

theorem mem_drawnBelow {fuel : Nat} {bound : Limbs w} {count : Nat} {source : σ} {x : Limbs w}
    (hx : x ∈ (drawnBelow fuel bound count source).1) :
    x.length = bound.length ∧ val x < val bound := by
  induction count generalizing source with
  | zero => simp [drawnBelow] at hx
  | succ count ih =>
      rw [drawnBelow] at hx
      rcases sampleBelow_cases fuel bound source with hdraw | ⟨rest, hdraw⟩ | ⟨y, rest, hdraw, hy⟩
      · rw [hdraw] at hx
        simp at hx
      · rw [hdraw] at hx
        simp at hx
      · rw [hdraw] at hx
        rcases List.mem_cons.mp hx with rfl | hmem
        · exact hy
        · exact ih hmem

/-- How the trials end, where `number` is the candidate for a draw: with the
first that survives and is accepted, without one, or for lack of fuel, in a draw
or in a test. -/
def EndsAtTrial (fuel k : Nat) (p : Limbs w) (number : Limbs w → Nat)
    (drawn : List (Limbs w) × Checked Bool) : Checked ((Bool × Limbs w) × σ) → Prop
  | .ok ((true, out), _) => out.length = p.length ∧ ∃ before x after,
      drawn.1 = before ++ x :: after ∧ val out = number x ∧
      Survives k (number x) ∧ Accepted w (number x) ∧
      ∀ y ∈ before, ¬ (Survives k (number y) ∧ Accepted w (number y))
  | .ok ((false, out), _) => out = p ∧
      ∀ y ∈ drawn.1, ¬ (Survives k (number y) ∧ Accepted w (number y))
  | .error fault => fault = .outOfFuel ∧ (drawn.2 = .error .outOfFuel ∨
      ∃ x ∈ drawn.1, Survives k (number x) ∧ Unanswered w fuel (number x))

omit [ByteSource σ] in
/-- A trial without success may come first. -/
theorem EndsAtTrial.cons {fuel k : Nat} {p x : Limbs w} {number : Limbs w → Nat}
    {drawn : List (Limbs w) × Checked Bool} {result : Checked ((Bool × Limbs w) × σ)}
    (hx : ¬ (Survives k (number x) ∧ Accepted w (number x)))
    (h : EndsAtTrial fuel k p number drawn result) :
    EndsAtTrial fuel k p number (x :: drawn.1, drawn.2) result := by
  match result, h with
  | .ok ((true, out), _), ⟨hlen, before, y, after, hdrawn, hval, hsurvives, haccepted, hbefore⟩ =>
      exact ⟨hlen, x :: before, y, after, by rw [hdrawn, List.cons_append], hval, hsurvives,
        haccepted, List.forall_mem_cons.mpr ⟨hx, hbefore⟩⟩
  | .ok ((false, out), _), ⟨hsame, hnone⟩ =>
      exact ⟨hsame, List.forall_mem_cons.mpr ⟨hx, hnone⟩⟩
  | .error fault, ⟨hfault, hreason⟩ =>
      refine ⟨hfault, ?_⟩
      rcases hreason with hdraws | ⟨y, hy, htest⟩
      · exact .inl hdraws
      · exact .inr ⟨y, List.mem_cons_of_mem _ hy, htest⟩

/-- A computation that is left with the draws `drawn` ends as the trials on them
do, and never reports an empty range. -/
def Tries (limits : TrialLimits) (p : Limbs w) (number : Limbs w → Nat)
    (drawn : List (Limbs w) × Checked Bool) (trials : Search w ((Bool × Limbs w) × σ)) : Prop :=
  ∃ events result, Search.Computes trials (isPrimeDepth p.length) events result ∧
    EndsAtTrial limits.fuel limits.sieve p number drawn result ∧
    ∀ bits, Event.emptyRange bits ∉ events

section Step

variable {limits : TrialLimits} {range : Multipliers w} {p x : Limbs w} {source rest : σ}
  (hdraw : sampleBelow limits.fuel range.count.length range.count source = .ok (some x, rest))
  (hbitLen : bitLen (range.candidate x) = limits.bits)
  (hlen : ((range.candidate x).take p.length).length = p.length)

include hdraw hbitLen

/-- A draw whose candidate is sieved out is no trial at all. -/
theorem trial_sieved (hs : ¬ survivesSieve limits.sieve (range.candidate x) = true)
    {remaining trial : Nat} {events : List Event} {result : Checked ((Bool × Limbs w) × σ)}
    (hrun : Search.Computes (runTrials limits range p remaining (trial + 1) rest)
      (isPrimeDepth p.length) events result) :
    Search.Computes (runTrials limits range p (remaining + 1) trial source)
      (isPrimeDepth p.length) events result := by
  unfold runTrials
  rw [hdraw]
  refine (Search.computes_quietly ((Work.computes_lift _).mono (Nat.zero_le _))).bind_silent ?_
  dsimp only
  rw [Search.ensure_bind hbitLen, if_neg hs]
  exact hrun

include hlen

/-- A draw whose candidate survives is reported and tested, and the trial ends as the
test does. -/
theorem trial_tested (hs : survivesSieve limits.sieve (range.candidate x) = true)
    (remaining trial : Nat) {events : List Event} {result : Checked ((Bool × Limbs w) × σ)}
    (htested : match primeOutcome limits.fuel ((range.candidate x).take p.length) with
      | .error fault => events = [] ∧ result = .error fault
      | .ok true => events = [.drawFound trial limits.bits] ∧
          result = .ok ((true, (range.candidate x).take p.length), rest)
      | .ok false => Search.Computes (runTrials limits range p remaining (trial + 1) rest)
          (isPrimeDepth p.length) events result) :
    Search.Computes (runTrials limits range p (remaining + 1) trial source)
      (isPrimeDepth p.length) (.testingDraw trial limits.bits :: events) result := by
  have htest := Search.computes_quietly
    (isPrime_computes limits.fuel ((range.candidate x).take p.length))
  rw [hlen] at htest
  unfold runTrials
  rw [hdraw]
  refine (Search.computes_quietly ((Work.computes_lift _).mono (Nat.zero_le _))).bind_silent ?_
  dsimp only
  rw [Search.ensure_bind hbitLen, if_pos hs]
  cases hout : primeOutcome limits.fuel ((range.candidate x).take p.length) with
  | error fault =>
      rw [hout] at htest htested
      obtain ⟨rfl, rfl⟩ := htested
      exact htest.bind_error.after_emit _
  | ok answer =>
      rw [hout] at htest htested
      cases answer with
      | true =>
          obtain ⟨rfl, rfl⟩ := htested
          exact (htest.bind_silent (Search.computes_report _ _ _)).after_emit _
      | false => exact (htest.bind_silent htested).after_emit _

/-- One trial, if the later ones go on as they should. -/
theorem trial_step {number : Limbs w → Nat} {drawn : List (Limbs w) × Checked Bool}
    {remaining trial : Nat} (hvalue : val (range.candidate x) = number x)
    (hval : val ((range.candidate x).take p.length) = val (range.candidate x))
    (hrest : Tries limits p number drawn (runTrials limits range p remaining (trial + 1) rest)) :
    Tries limits p number (x :: drawn.1, drawn.2)
      (runTrials limits range p (remaining + 1) trial source) := by
  obtain ⟨events, result, hrun, hends, hevents⟩ := hrest
  have hresult : val ((range.candidate x).take p.length) = number x := hval.trans hvalue
  by_cases hs : survivesSieve limits.sieve (range.candidate x) = true
  · have hsurvives : Survives limits.sieve (number x) := by
      rwa [survivesSieve_iff, hvalue] at hs
    cases hout : primeOutcome limits.fuel ((range.candidate x).take p.length) with
    | error fault =>
        refine ⟨_, .error fault, trial_tested hdraw hbitLen hlen hs remaining trial
          (by rw [hout]; exact ⟨rfl, rfl⟩), ⟨primeOutcome_error hout, .inr ?_⟩, by simp⟩
        exact ⟨x, List.mem_cons_self, hsurvives, hresult ▸ unanswered_of_outcome hout⟩
    | ok answer =>
        cases answer with
        | true =>
            refine ⟨_, .ok ((true, (range.candidate x).take p.length), rest),
              trial_tested hdraw hbitLen hlen hs remaining trial
                (by rw [hout]; exact ⟨rfl, rfl⟩), ⟨hlen, [], x, _, rfl, hresult, hsurvives, ?_⟩,
              by simp⟩
            exact ⟨hresult ▸ accepted_of_outcome hout, by simp⟩
        | false =>
            refine ⟨_, result, trial_tested hdraw hbitLen hlen hs remaining trial
                (by rw [hout]; exact hrun),
              hends.cons fun h => not_accepted_of_outcome hout (hresult ▸ h.2), ?_⟩
            simpa using hevents
  · refine ⟨_, _, trial_sieved hdraw hbitLen hs hrun, hends.cons fun h => hs ?_, hevents⟩
    rw [survivesSieve_iff, hvalue]
    exact h.1

end Step

/-- What a draw can be: one that runs out of fuel, one that the source fails to serve,
which is reported, or one below the count, whose candidate has the right length. -/
theorem trial_cases (limits : TrialLimits) {range : Multipliers w} {m q : Nat}
    (hspans : range.Spans m limits.bits q) (hfits : Fits w m limits.bits q)
    (hle : leastMultiplier limits.bits q ≤ greatestMultiplier limits.bits q) {p : Limbs w}
    (hp : limits.bits ≤ p.length * w.bits) (hroom : p.length ≤ m) (remaining trial : Nat)
    (source : σ) :
    let draw := sampleBelow limits.fuel range.count.length range.count source
    let trials := runTrials limits range p (remaining + 1) trial source
    (draw = .error .outOfFuel ∧
        Search.Computes trials (isPrimeDepth p.length) [] (.error .outOfFuel)) ∨
      (∃ rest, draw = .ok (none, rest) ∧ Search.Computes trials (isPrimeDepth p.length)
        [.sourceFailed trial] (.ok ((false, p), rest))) ∨
      ∃ x rest, draw = .ok (some x, rest) ∧ bitLen (range.candidate x) = limits.bits ∧
        ((range.candidate x).take p.length).length = p.length ∧
        val (range.candidate x) = 2 * (leastMultiplier limits.bits q + val x) * q + 1 ∧
        val ((range.candidate x).take p.length) = val (range.candidate x) := by
  intro draw trials
  have hdrawn := Search.computes_quietly (w := w)
    ((Work.computes_lift (sampleBelow limits.fuel range.count.length range.count source)).mono
      (Nat.zero_le (isPrimeDepth p.length)))
  rcases sampleBelow_cases limits.fuel range.count source with
    hdraw | ⟨rest, hdraw⟩ | ⟨x, rest, hdraw, hxlen, hxlt⟩
  · refine .inl ⟨hdraw, ?_⟩
    unfold trials runTrials
    rw [hdraw] at hdrawn ⊢
    exact hdrawn.bind_error
  · refine .inr (.inl ⟨rest, hdraw, ?_⟩)
    unfold trials runTrials
    rw [hdraw] at hdrawn ⊢
    exact hdrawn.bind_silent (Search.computes_report _ _ _)
  · rw [(count_spec hspans hfits hle).1] at hxlen
    obtain ⟨hvalue, hbitLen⟩ := bitLen_candidate hspans hfits hle hxlen hxlt
    obtain ⟨hlen, hval⟩ := take_candidate hspans hbitLen hp hroom hxlen
    exact .inr (.inr ⟨x, rest, hdraw, hbitLen, hlen, hvalue, hval⟩)

/-- The trials end at the first draw that gives an accepted survivor, or with the
draws. -/
theorem runTrials_computes (limits : TrialLimits) {range : Multipliers w} {m q : Nat}
    (hspans : range.Spans m limits.bits q) (hfits : Fits w m limits.bits q)
    (hle : leastMultiplier limits.bits q ≤ greatestMultiplier limits.bits q) {p : Limbs w}
    (hp : limits.bits ≤ p.length * w.bits) (hroom : p.length ≤ m) (remaining trial : Nat)
    (source : σ) :
    Tries limits p (fun x => 2 * (leastMultiplier limits.bits q + val x) * q + 1)
      (drawnBelow limits.fuel range.count remaining source)
      (runTrials limits range p remaining trial source) := by
  induction remaining generalizing trial source with
  | zero =>
      exact ⟨_, .ok ((false, p), source), Search.computes_report _ _ _,
        ⟨rfl, by simp [drawnBelow]⟩, by simp⟩
  | succ remaining ih =>
      rw [drawnBelow]
      rcases trial_cases limits hspans hfits hle hp hroom remaining trial source with
        ⟨hdraw, hrun⟩ | ⟨rest, hdraw, hrun⟩ | ⟨x, rest, hdraw, hbitLen, hlen, hvalue, hval⟩
      · rw [hdraw]
        exact ⟨_, .error .outOfFuel, hrun, ⟨rfl, .inl rfl⟩, by simp⟩
      · -- no later trial takes place
        rw [hdraw]
        exact ⟨_, .ok ((false, p), rest), hrun, ⟨rfl, by simp⟩, by simp⟩
      · rw [hdraw]
        exact trial_step hdraw hbitLen hlen hvalue hval (ih (trial + 1) rest)

/-! ## The whole search -/

theorem le_workingWords (n nq : Nat) : n ≤ workingWords n nq ∧ nq ≤ workingWords n nq := by
  unfold workingWords
  omega

/-- The working numbers have room for the length and the factor. -/
theorem fits_workingWords {p q : Limbs w} {bits : Nat} (hbits : 2 ≤ bits)
    (hp : bits ≤ p.length * w.bits) (hq : val q ≠ 0) :
    Fits w (workingWords p.length q.length) bits (val q) := by
  have hradix := Word.two_le_radix w
  refine ⟨hbits, ?_, Nat.pos_of_ne_zero hq, ?_⟩
  · calc bits ≤ p.length * w.bits := hp
      _ < p.length * w.bits + w.bits := Nat.lt_add_of_pos_right w.bits_pos
      _ = (p.length + 1) * w.bits := (Nat.succ_mul _ _).symm
      _ ≤ workingWords p.length q.length * w.bits :=
          Nat.mul_le_mul_right _ (Nat.succ_le_succ (Nat.le_max_left _ _))
  · calc 2 * val q < 2 * 2 ^ (w.bits * q.length) :=
          Nat.mul_lt_mul_of_pos_left (val_lt q) (by decide)
      _ ≤ 2 ^ w.bits * 2 ^ (w.bits * q.length) := Nat.mul_le_mul_right _ hradix
      _ = 2 ^ (w.bits * (q.length + 1)) := (radix_succ w q.length).symm
      _ ≤ 2 ^ (w.bits * workingWords p.length q.length) :=
          radix_le w (Nat.succ_le_succ (Nat.le_max_right _ _))

/-- What a search asks of its arguments: a length of at least two bits that fits
the result, a factor other than zero, and a multiplier to draw. -/
def Searchable (n bits q : Nat) (w : Width) : Prop :=
  2 ≤ bits ∧ bits ≤ n * w.bits ∧ q ≠ 0 ∧ leastMultiplier bits q ≤ greatestMultiplier bits q

/-- The draws of a whole search. -/
def searchDraws (fuel : Nat) (p : Limbs w) (bits : Nat) (q : Limbs w) (trials : Nat)
    (source : σ) : List (Limbs w) × Checked Bool :=
  drawnBelow fuel (ofNat (workingWords p.length q.length)
    (greatestMultiplier bits (val q) - leastMultiplier bits (val q) + 1)) trials source

theorem length_searchDraws (fuel : Nat) (p : Limbs w) (bits : Nat) (q : Limbs w) (trials : Nat)
    (source : σ) : (searchDraws fuel p bits q trials source).1.length ≤ trials :=
  length_drawnBelow _ _ _ _

/-- A draw chooses a multiplier of the range. -/
theorem mem_searchDraws {fuel : Nat} {p : Limbs w} {bits : Nat} {q : Limbs w} {trials : Nat}
    {source : σ} (hsearch : Searchable p.length bits (val q) w) {x : Limbs w}
    (hx : x ∈ (searchDraws fuel p bits q trials source).1) :
    leastMultiplier bits (val q) + val x ≤ greatestMultiplier bits (val q) := by
  obtain ⟨-, -, -, hle⟩ := hsearch
  have hlt := (mem_drawnBelow hx).2
  rw [val_ofNat] at hlt
  have hmod := Nat.mod_le (greatestMultiplier bits (val q) - leastMultiplier bits (val q) + 1)
    (2 ^ (w.bits * workingWords p.length q.length))
  omega

/-- With proper arguments the search has its range of multipliers, and then goes
on to the trials unless there is nothing to draw. -/
theorem extendPrime_opens {bits k : Nat} {p q : Limbs w} (fuel trials : Nat) (source : σ)
    (hk : k ≤ FactorBase.size) (hbits : 2 ≤ bits) (hp : bits ≤ p.length * w.bits)
    (hq : val q ≠ 0) :
    ∃ range : Multipliers w, range.Spans (workingWords p.length q.length) bits (val q) ∧
      ∀ events result, Search.Computes
        (if less range.greatest range.least then do
            Search.emit (.emptyRange bits)
            return ((false, p), source)
          else runTrials ⟨trials, k, bits, fuel⟩ range p trials 1 source)
        (isPrimeDepth p.length) events result →
      Search.Computes (extendPrime fuel p bits q trials k source)
        (extendPrimeDepth p.length q.length) events result := by
  obtain ⟨range, hrange, hspans⟩ := multipliers_computes (le_workingWords _ _).2
    (fits_workingWords hbits hp hq)
  refine ⟨range, hspans, ?_⟩
  intro events result hrun
  have hargs : ¬ (bits < 2 ∨ p.length * w.bits < bits ∨ isZero q = true) := by
    rw [isZero_iff]
    omega
  unfold extendPrime
  rw [Search.ensure_bind hk, if_neg hargs, extendPrimeDepth]
  refine Search.Computes.withBuffer (fun buffer _ => ⟨range.step, ?_⟩)
  apply ((Search.computes_quietly hrange).mono (Nat.le_max_left _ _)).bind_silent
  split
  · next hempty =>
      rw [if_pos hempty] at hrun
      exact (hrun.mono (Nat.le_max_right _ _)).then_pure fun result => (result, range.step)
  · next hempty =>
      rw [if_neg hempty] at hrun
      exact (hrun.mono (Nat.le_max_right _ _)).then_pure _

theorem extendPrime_computes {bits k : Nat} {p q : Limbs w} (fuel trials : Nat) (source : σ)
    (hk : k ≤ FactorBase.size) (hsearch : Searchable p.length bits (val q) w) :
    ∃ events result, Search.Computes (extendPrime fuel p bits q trials k source)
      (extendPrimeDepth p.length q.length) events result ∧
      EndsAtTrial fuel k p (fun x => 2 * (leastMultiplier bits (val q) + val x) * val q + 1)
        (searchDraws fuel p bits q trials source) result ∧
      ∀ bits, Event.emptyRange bits ∉ events := by
  obtain ⟨hbits, hp, hq, hle⟩ := hsearch
  have hfits := fits_workingWords hbits hp hq
  obtain ⟨range, hspans, hopens⟩ := extendPrime_opens fuel trials source hk hbits hp hq
  obtain ⟨events, result, hrun, hends, hevents⟩ := runTrials_computes ⟨trials, k, bits, fuel⟩
    hspans hfits hle hp (le_workingWords _ _).1 trials 1 source
  rw [count_eq hspans hfits hle] at hends
  have hnonempty : ¬ less range.greatest range.least = true := by
    rw [less_iff, hspans.greatest_val, hspans.least_val]
    omega
  rw [if_neg hnonempty] at hopens
  exact ⟨events, result, hopens _ _ hrun, hends, hevents⟩

/-- A range without multipliers is reported, and nothing else happens. -/
theorem extendPrime_empty {bits k : Nat} {p q : Limbs w} (fuel trials : Nat) (source : σ)
    (hk : k ≤ FactorBase.size) (hbits : 2 ≤ bits) (hp : bits ≤ p.length * w.bits)
    (hq : val q ≠ 0) (hlt : greatestMultiplier bits (val q) < leastMultiplier bits (val q)) :
    Search.Computes (extendPrime fuel p bits q trials k source)
      (extendPrimeDepth p.length q.length) [.emptyRange bits] (.ok ((false, p), source)) := by
  obtain ⟨range, hspans, hopens⟩ := extendPrime_opens fuel trials source hk hbits hp hq
  have hempty : less range.greatest range.least = true := by
    rw [less_iff, hspans.greatest_val, hspans.least_val]
    exact hlt
  rw [if_pos hempty] at hopens
  exact hopens _ _ (Search.computes_report _ _ _)

/-- Arguments that cannot be searched leave the result as it was. -/
theorem extendPrime_unsearchable {bits k : Nat} {p q : Limbs w} (fuel trials : Nat) (source : σ)
    (hk : k ≤ FactorBase.size) (hsearch : ¬ Searchable p.length bits (val q) w) :
    ∃ events, Search.Computes (extendPrime fuel p bits q trials k source)
      (extendPrimeDepth p.length q.length) events (.ok ((false, p), source)) := by
  by_cases hargs : bits < 2 ∨ p.length * w.bits < bits ∨ isZero q = true
  · refine ⟨[], ?_⟩
    unfold extendPrime
    rw [Search.ensure_bind hk, if_pos hargs]
    exact (Search.computes_pure _).mono (Nat.zero_le _)
  · have hproper : 2 ≤ bits ∧ bits ≤ p.length * w.bits ∧ val q ≠ 0 := by
      rw [isZero_iff] at hargs
      omega
    obtain ⟨hbits, hp, hq⟩ := hproper
    have hlt : greatestMultiplier bits (val q) < leastMultiplier bits (val q) := by
      by_contra hcontra
      exact hsearch ⟨hbits, hp, hq, not_lt.mp hcontra⟩
    exact ⟨_, extendPrime_empty fuel trials source hk hbits hp hq hlt⟩

/-! ## Reports -/

/-- What a search for a prime with a given factor reports, where the draws are `drawn`
and each stands for a number. -/
structure FindsWithFactor (fuel k : Nat) (p : Limbs w) (bits : Nat) (q : Limbs w) (trials : Nat)
    (number : Limbs w → Nat) (drawn : List (Limbs w) × Checked Bool)
    (report : Report w ((Bool × Limbs w) × σ)) : Prop where
  /-- It never faults but for fuel, in a draw or in a test. -/
  unanswered : ∀ fault, report.outcome = .error fault → fault = .outOfFuel ∧
    Searchable p.length bits (val q) w ∧ (drawn.2 = .error .outOfFuel ∨
      ∃ x ∈ drawn.1, Survives k (number x) ∧ Unanswered w fuel (number x))
  answered : ∀ found p' source' rest, report.outcome = .ok (((found, p'), source'), rest) →
    (found = true ↔ Searchable p.length bits (val q) w ∧
      ∃ x ∈ drawn.1, Survives k (number x) ∧ Accepted w (number x)) ∧
    (found = false → p' = p) ∧
    (found = true →
      p'.length = p.length ∧ Nat.size (val p') = bits ∧ Accepted w (val p') ∧
      (∃ r, 1 ≤ r ∧ val p' = 2 * r * val q + 1) ∧
      ∃ before x after, drawn.1 = before ++ x :: after ∧ before.length < trials ∧
        val p' = number x ∧ Survives k (number x) ∧
        ∀ y ∈ before, ¬ (Survives k (number y) ∧ Accepted w (number y)))

section

variable {fuel k bits trials depth : Nat} {p q scratch : Limbs w} {source : σ}
  {search : Search w ((Bool × Limbs w) × σ)} {events : List Event}

omit [ByteSource σ] in
theorem findsWithFactor_of_refused {number : Limbs w → Nat}
    {drawn : List (Limbs w) × Checked Bool} (hsearch : ¬ Searchable p.length bits (val q) w)
    (hrun : Search.Computes search depth events (.ok ((false, p), source)))
    (hdepth : depth ≤ scratch.length) :
    FindsWithFactor fuel k p bits q trials number drawn (search.run scratch) := by
  have hresult := (hrun.run hdepth).2
  constructor
  · intro fault herror
    rw [herror] at hresult
    exact absurd hresult (by simp [Except.map])
  · intro found p' source' rest hok
    rw [hok] at hresult
    have hpair : ((found, p'), source') = ((false, p), source) := Except.ok.inj hresult
    obtain ⟨hfound, hsame⟩ := Prod.mk.inj (Prod.mk.inj hpair).1
    exact ⟨iff_of_false (by rw [hfound]; simp) (fun h => hsearch h.1), fun _ => hsame,
      fun h => absurd (hfound.symm.trans h) (by simp)⟩

/-- A search that ends at the trial it should finds a number of the bits asked for, which
the range of the multipliers sees to. -/
theorem findsWithFactor_of_ends {result : Checked ((Bool × Limbs w) × σ)}
    (hsearch : Searchable p.length bits (val q) w)
    (hrun : Search.Computes search depth events result) (hdepth : depth ≤ scratch.length)
    (hends : EndsAtTrial fuel k p
      (fun x => 2 * (leastMultiplier bits (val q) + val x) * val q + 1)
      (searchDraws fuel p bits q trials source) result) :
    FindsWithFactor fuel k p bits q trials
      (fun x => 2 * (leastMultiplier bits (val q) + val x) * val q + 1)
      (searchDraws fuel p bits q trials source) (search.run scratch) := by
  have hresult := (hrun.run hdepth).2
  constructor
  · intro fault herror
    rw [herror] at hresult
    rw [← hresult] at hends
    exact ⟨hends.1, hsearch, hends.2⟩
  · intro found p' source' rest hok
    rw [hok] at hresult
    rw [← hresult] at hends
    cases found with
    | false =>
        obtain ⟨hsame, hnone⟩ := hends
        refine ⟨iff_of_false (by simp) ?_, fun _ => hsame, fun h => absurd h (by simp)⟩
        rintro ⟨-, x, hx, hfound⟩
        exact hnone x hx hfound
    | true =>
        obtain ⟨hlen, before, x, after, hdrawn, hval, hsurvives, haccepted, hbefore⟩ := hends
        have hmem : x ∈ (searchDraws fuel p bits q trials source).1 := by
          rw [hdrawn]
          exact List.mem_append_cons_self
        have htrials : before.length < trials := by
          have hcount := length_searchDraws fuel p bits q trials source
          rw [hdrawn, List.length_append, List.length_cons] at hcount
          omega
        have hsize := size_candidate hsearch.1 (Nat.pos_of_ne_zero hsearch.2.2.1)
          (Nat.le_add_right _ _) (mem_searchDraws hsearch hmem)
        have hleast := leastMultiplier_pos bits (val q)
        refine ⟨iff_of_true rfl ⟨hsearch, x, hmem, hsurvives, haccepted⟩,
          fun h => absurd h (by simp), fun _ => ⟨hlen, ?_, ?_, ⟨_, ?_, hval⟩, before, x, after,
            hdrawn, htrials, hval, hsurvives, hbefore⟩⟩
        · rw [hval]
          exact hsize
        · rw [hval]
          exact haccepted
        · omega

omit [ByteSource σ] in
/-- If the first draw gives a number that survives, is answered and is accepted, it is
found. -/
theorem FindsWithFactor.found_first {number : Limbs w → Nat} {drawn : List (Limbs w) × Checked Bool}
    {report : Report w ((Bool × Limbs w) × σ)} {x : Limbs w}
    (h : FindsWithFactor fuel k p bits q 1 number drawn report)
    (hsearch : Searchable p.length bits (val q) w) (hdrawn : drawn = ([x], .ok true))
    (hsurvives : Survives k (number x)) (hx : Accepted w (number x))
    (hanswer : ¬ Unanswered w fuel (number x)) :
    ∃ p' source' rest, report.outcome = .ok (((true, p'), source'), rest) ∧
      val p' = number x := by
  subst hdrawn
  cases houtcome : report.outcome with
  | error fault =>
      obtain ⟨-, -, hdraws | ⟨y, hy, -, htest⟩⟩ := h.unanswered fault houtcome
      · contradiction
      · rw [List.mem_singleton.mp hy] at htest
        exact absurd htest hanswer
  | ok result =>
      obtain ⟨⟨⟨found, p'⟩, source'⟩, rest⟩ := result
      obtain ⟨hiff, -, hfound⟩ := h.answered found p' source' rest houtcome
      have htrue : found = true := hiff.mpr ⟨hsearch, x, List.mem_cons_self, hsurvives, hx⟩
      obtain ⟨-, -, -, -, before, y, after, hlist, hfew, hval, -⟩ := hfound htrue
      obtain rfl : before = [] := List.eq_nil_of_length_eq_zero (by omega)
      obtain ⟨rfl, -⟩ := List.cons.inj hlist
      exact ⟨p', source', rest, by rw [htrue], hval⟩

end

/-- The meaning of the search for a prime with a given factor. -/
theorem extendPrime_findsWithFactor (fuel : Nat) (p : Limbs w) (bits : Nat) (q : Limbs w)
    (trials k : Nat) (source : σ) (scratch : Limbs w) (hk : k ≤ FactorBase.size)
    (hdepth : extendPrimeDepth p.length q.length ≤ scratch.length) :
    FindsWithFactor fuel k p bits q trials
      (fun x => 2 * (leastMultiplier bits (val q) + val x) * val q + 1)
      (searchDraws fuel p bits q trials source)
      ((extendPrime fuel p bits q trials k source).run scratch) := by
  by_cases hsearch : Searchable p.length bits (val q) w
  · obtain ⟨events, result, hrun, hends, -⟩ :=
      extendPrime_computes fuel trials source hk hsearch
    exact findsWithFactor_of_ends hsearch hrun hdepth hends
  · obtain ⟨events, hrun⟩ := extendPrime_unsearchable fuel trials source hk hsearch
    exact findsWithFactor_of_refused hsearch hrun hdepth

end CryptoPrimes.Prime
