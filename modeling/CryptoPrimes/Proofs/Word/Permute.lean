import Mathlib.Tactic.Ring
import CryptoPrimes.Proofs.Word.Count
import CryptoPrimes.Word.Bits

/-!
# The perfect shuffle

A word falls into blocks of `2 ^ (j + 2)` bits.  The mask of the exchange at distance
`2 ^ j` has its ones in the second quarter of every block, so the exchange swaps the
two middle quarters and leaves the outer ones (`testBit_exchange`).  In the digits of a
place, those at `j` and `j + 1` change places.

Then the lower quarters of both halves make up the lower half of a block and the upper
quarters its upper half, and the exchanges at smaller distances shuffle each of them on
its own.  `testBit_cascade` follows them by induction: the exchanges below distance
`2 ^ n` interleave the halves of every block of `2 ^ (n + 1)` bits.  The exchanges of a
shuffle begin with a block that is the whole word (`testBit_shuffle`).

An exchange undoes itself, so the same exchanges in opposite order undo the cascade
(`exchanges_reverse`), from either side.
-/

namespace CryptoPrimes.Word

variable {w : Width}

/-! ## One exchange -/

/-- The ones of the mask are the second quarter of every block of `2 ^ (j + 2)` bits. -/
def SecondQuarters (j : Nat) (mask : Word w) : Prop :=
  ∀ i < w.bits, mask.toNat.testBit i = decide (i / 2 ^ j % 4 = 1)

instance (j : Nat) (mask : Word w) : Decidable (SecondQuarters j mask) :=
  inferInstanceAs (Decidable (∀ i < w.bits, _))

/-- The second quarter comes from the third and the third from the second. -/
theorem testBit_exchange_quarters {j : Nat} {mask : Word w} (hmask : SecondQuarters j mask)
    (hj : 2 ^ j < w.bits) (x : Word w) {i : Nat} (hi : i < w.bits) :
    (exchange x (2 ^ j) mask).toNat.testBit i =
      x.toNat.testBit (if i / 2 ^ j % 4 = 1 then i + 2 ^ j
        else if i / 2 ^ j % 4 = 2 then i - 2 ^ j else i) := by
  have hdistance := bits_lt_register w hj
  have hpos := Nat.two_pow_pos j
  have hbelow (hle : 2 ^ j ≤ i) :
      mask.toNat.testBit (i - 2 ^ j) = decide (i / 2 ^ j % 4 = 2) := by
    rw [hmask _ (by omega), decide_eq_decide, Nat.div_eq_sub_div hpos hle]
    omega
  unfold exchange
  simp only [toNat_xor, toNat_and, Nat.testBit_xor, Nat.testBit_and,
    testBit_shiftLeft _ hdistance hi, testBit_shiftRight _ hdistance, hmask i hi]
  -- the difference of two bits is added to both of them, which turns each into the other
  by_cases hle : 2 ^ j ≤ i
  · rw [hbelow hle, Nat.sub_add_cancel hle]
    by_cases hsecond : i / 2 ^ j % 4 = 1
    · simp [hsecond]
    · by_cases hthird : i / 2 ^ j % 4 = 2
      · simp [hthird, hle, Bool.xor_comm]
      · simp [hsecond, hthird]
  · have hfirst : i / 2 ^ j = 0 := Nat.div_eq_of_lt (not_le.mp hle)
    simp [hle, hfirst]

/-- The place with digits `high` at `j + 1` and `low` at `j`, between the digits `above`
and `below` them. -/
def place (j above high low below : Nat) : Nat :=
  2 ^ j * (4 * above + 2 * high + low) + below

section Places

variable {j above high low below : Nat}

/-- A place is within the word if its block is. -/
theorem place_lt (hroom : 2 ^ (j + 2) * (above + 1) ≤ w.bits) (hhigh : high < 2) (hlow : low < 2)
    (hbelow : below < 2 ^ j) : place j above high low below < w.bits := by
  calc place j above high low below
      < 2 ^ j * (4 * above + 2 * high + low) + 2 ^ j := Nat.add_lt_add_left hbelow _
    _ = 2 ^ j * (4 * above + 2 * high + low + 1) := (Nat.mul_succ _ _).symm
    _ ≤ 2 ^ j * (4 * (above + 1)) := Nat.mul_le_mul_left _ (by omega)
    _ = 2 ^ (j + 2) * (above + 1) := by ring
    _ ≤ w.bits := hroom

theorem place_quarter (hhigh : high < 2) (hlow : low < 2) (hbelow : below < 2 ^ j) :
    place j above high low below / 2 ^ j % 4 = 2 * high + low := by
  rw [place, Nat.mul_add_div (Nat.two_pow_pos j), Nat.div_eq_of_lt hbelow]
  omega

/-- Every place of a word that consists of whole blocks has such digits. -/
theorem exists_place {i : Nat} (hblocks : 2 ^ (j + 2) ∣ w.bits) (hi : i < w.bits) :
    ∃ above high low below, 2 ^ (j + 2) * (above + 1) ≤ w.bits ∧ high < 2 ∧ low < 2 ∧
      below < 2 ^ j ∧ i = place j above high low below := by
  refine ⟨i / 2 ^ (j + 2), i / 2 ^ j / 2 % 2, i / 2 ^ j % 2, i % 2 ^ j, ?_,
    Nat.mod_lt _ two_pos, Nat.mod_lt _ two_pos, Nat.mod_lt _ (Nat.two_pow_pos j), ?_⟩
  · obtain ⟨blocks, hbits⟩ := hblocks
    rw [hbits] at hi ⊢
    exact Nat.mul_le_mul_left _ (Nat.div_lt_of_lt_mul hi)
  · have hdigits : 4 * (i / 2 ^ (j + 2)) + 2 * (i / 2 ^ j / 2 % 2) + i / 2 ^ j % 2 = i / 2 ^ j := by
      rw [Nat.pow_add, ← Nat.div_div_eq_div_mul]
      omega
    rw [place, hdigits, Nat.div_add_mod]

/-- An exchange at distance `2 ^ j` swaps the digits of every place at `j` and `j + 1`. -/
theorem testBit_exchange {mask : Word w} (hmask : SecondQuarters j mask) (x : Word w)
    (hroom : 2 ^ (j + 2) * (above + 1) ≤ w.bits) (hhigh : high < 2) (hlow : low < 2)
    (hbelow : below < 2 ^ j) :
    (exchange x (2 ^ j) mask).toNat.testBit (place j above high low below) =
      x.toNat.testBit (place j above low high below) := by
  have hj : 2 ^ j < w.bits := by
    calc 2 ^ j < 2 ^ (j + 2) := Nat.pow_lt_pow_right (by decide) (by omega)
      _ ≤ 2 ^ (j + 2) * (above + 1) := Nat.le_mul_of_pos_right _ (Nat.succ_pos above)
      _ ≤ w.bits := hroom
  have hup : place j above 0 1 below + 2 ^ j = place j above 1 0 below := by
    unfold place
    ring
  rw [testBit_exchange_quarters hmask hj x (place_lt hroom hhigh hlow hbelow),
    place_quarter hhigh hlow hbelow]
  obtain rfl | rfl : high = 0 ∨ high = 1 := by omega
  all_goals obtain rfl | rfl : low = 0 ∨ low = 1 := by omega
  · rfl
  · rw [if_pos rfl, hup]
  · rw [if_neg (by decide), if_pos rfl, ← hup, Nat.add_sub_cancel]
  · rfl

end Places

theorem exchange_exchange {j : Nat} {mask : Word w} (hmask : SecondQuarters j mask)
    (hblocks : 2 ^ (j + 2) ∣ w.bits) (x : Word w) :
    exchange (exchange x (2 ^ j) mask) (2 ^ j) mask = x := by
  apply ext_testBit
  intro i hi
  obtain ⟨above, high, low, below, hroom, hhigh, hlow, hbelow, rfl⟩ := exists_place hblocks hi
  rw [testBit_exchange hmask _ hroom hhigh hlow hbelow,
    testBit_exchange hmask _ hroom hlow hhigh hbelow]

/-! ## The cascade -/

/-- One exchange after the other. -/
def exchanges (steps : List (Nat × Word w)) (x : Word w) : Word w :=
  steps.foldl (fun y step => exchange y step.1 step.2) x

theorem exchanges_cons (step : Nat × Word w) (steps : List (Nat × Word w)) (x : Word w) :
    exchanges (step :: steps) x = exchanges steps (exchange x step.1 step.2) := rfl

theorem exchanges_concat (steps : List (Nat × Word w)) (step : Nat × Word w) (x : Word w) :
    exchanges (steps ++ [step]) x = exchange (exchanges steps x) step.1 step.2 :=
  List.foldl_concat ..

/-- Exchanges of middle quarters at the distances `2 ^ (n - 1), …, 2, 1`. -/
inductive Cascade : Nat → List (Nat × Word w) → Prop
  | done : Cascade 0 []
  | next {n : Nat} {mask : Word w} {steps : List (Nat × Word w)}
      (hmask : SecondQuarters n mask) (rest : Cascade n steps) :
      Cascade (n + 1) ((2 ^ n, mask) :: steps)

/-- The table of a width, every mask of it checked place by place. -/
theorem shuffleSteps_cascade (w : Width) : Cascade (w.placeDigits - 1) (shuffleSteps w) := by
  cases w with
  | w32 =>
      exact .next (by decide) (.next (by decide) (.next (by decide) (.next (by decide) .done)))
  | w64 =>
      exact .next (by decide) (.next (by decide) (.next (by decide) (.next (by decide)
        (.next (by decide) .done))))

/-- The exchanges from distance `2 ^ (n - 1)` down interleave the halves of every block of
`2 ^ (n + 1)` bits: bit `b` of its half `c` comes to `2 * b + c`. -/
theorem testBit_cascade {n : Nat} {steps : List (Nat × Word w)} (hsteps : Cascade n steps)
    (x : Word w) {a b c : Nat} (hroom : 2 ^ (n + 1) * (a + 1) ≤ w.bits) (hb : b < 2 ^ n)
    (hc : c < 2) :
    (exchanges steps x).toNat.testBit (2 ^ (n + 1) * a + (2 * b + c)) =
      x.toNat.testBit (2 ^ (n + 1) * a + (2 ^ n * c + b)) := by
  induction hsteps generalizing x a b with
  | done =>
      obtain rfl : b = 0 := Nat.lt_one_iff.mp hb
      simp [exchanges]
  | @next n mask steps hmask rest ih =>
      -- the top digit of `b` tells in which half of the block the smaller exchanges put the bit
      obtain ⟨top, low, htop, hlow, rfl⟩ : ∃ top low, top < 2 ∧ low < 2 ^ n ∧ b = 2 ^ n * top + low :=
        ⟨b / 2 ^ n, b % 2 ^ n, Nat.div_lt_of_lt_mul hb, Nat.mod_lt _ (Nat.two_pow_pos n),
          (Nat.div_add_mod _ _).symm⟩
      have hhalf : 2 ^ (n + 1) * (2 * a + top + 1) ≤ w.bits := by
        calc 2 ^ (n + 1) * (2 * a + top + 1)
            ≤ 2 ^ (n + 1) * (2 * (a + 1)) := Nat.mul_le_mul_left _ (by omega)
          _ = 2 ^ (n + 2) * (a + 1) := by ring
          _ ≤ w.bits := hroom
      calc (exchanges ((2 ^ n, mask) :: steps) x).toNat.testBit
            (2 ^ (n + 2) * a + (2 * (2 ^ n * top + low) + c))
          = (exchanges steps (exchange x (2 ^ n) mask)).toNat.testBit
              (2 ^ (n + 1) * (2 * a + top) + (2 * low + c)) := by
            rw [exchanges_cons]
            congr 1
            ring
        _ = (exchange x (2 ^ n) mask).toNat.testBit
              (2 ^ (n + 1) * (2 * a + top) + (2 ^ n * c + low)) := ih _ hhalf hlow
        _ = (exchange x (2 ^ n) mask).toNat.testBit (place n a top c low) := by
            unfold place
            congr 1
            ring
        _ = x.toNat.testBit (place n a c top low) := testBit_exchange hmask x hroom htop hc hlow
        _ = x.toNat.testBit (2 ^ (n + 2) * a + (2 ^ (n + 1) * c + (2 ^ n * top + low))) := by
            unfold place
            congr 1
            ring

/-- Each exchange of a cascade undoes itself. -/
theorem Cascade.involutive {n : Nat} {steps : List (Nat × Word w)} (hsteps : Cascade n steps)
    (hblocks : 2 ^ (n + 1) ∣ w.bits) :
    ∀ step ∈ steps, Function.Involutive fun y : Word w => exchange y step.1 step.2 := by
  induction hsteps with
  | done => simp
  | @next n mask steps hmask rest ih =>
      intro step hstep
      rcases List.mem_cons.mp hstep with rfl | hrest
      · exact exchange_exchange hmask hblocks
      · exact ih ((Nat.pow_dvd_pow 2 (Nat.le_succ _)).trans hblocks) step hrest

/-- Exchanges that undo themselves are undone in opposite order. -/
theorem exchanges_reverse {steps : List (Nat × Word w)}
    (hsteps : ∀ step ∈ steps, Function.Involutive fun y : Word w => exchange y step.1 step.2)
    (x : Word w) : exchanges steps.reverse (exchanges steps x) = x := by
  induction steps generalizing x with
  | nil => rfl
  | cons step steps ih =>
      have hlater := ih fun later hmem => hsteps later (List.mem_cons_of_mem _ hmem)
      rw [List.reverse_cons, exchanges_concat, exchanges_cons, hlater]
      exact hsteps step List.mem_cons_self x

/-! ## Shuffled words -/

theorem halfBits_eq_two_pow (w : Width) : w.halfBits = 2 ^ (w.placeDigits - 1) := by
  cases w <;> rfl

/-- The first exchange of a shuffle swaps quarters of the whole word. -/
theorem shuffle_block (w : Width) : 2 ^ (w.placeDigits - 1 + 1) = w.bits := by
  cases w <;> rfl

theorem testBit_shuffle (x : Word w) {i c : Nat} (hi : i < w.halfBits) (hc : c < 2) :
    x.shuffle.toNat.testBit (2 * i + c) = x.toNat.testBit (w.halfBits * c + i) := by
  have hroom : 2 ^ (w.placeDigits - 1 + 1) * (0 + 1) ≤ w.bits := by
    rw [shuffle_block, Nat.zero_add, Nat.mul_one]
  rw [halfBits_eq_two_pow] at hi ⊢
  have h := testBit_cascade (shuffleSteps_cascade w) x hroom hi hc
  rwa [Nat.mul_zero, Nat.zero_add, Nat.zero_add] at h

theorem testBit_shuffle_even (x : Word w) {i : Nat} (hi : i < w.halfBits) :
    x.shuffle.toNat.testBit (2 * i) = x.toNat.testBit i := by
  simpa using testBit_shuffle x hi Nat.zero_lt_two

theorem testBit_shuffle_odd (x : Word w) {i : Nat} (hi : i < w.halfBits) :
    x.shuffle.toNat.testBit (2 * i + 1) = x.toNat.testBit (w.halfBits + i) := by
  simpa using testBit_shuffle x hi Nat.one_lt_two

theorem shuffleSteps_involutive (w : Width) :
    ∀ step ∈ shuffleSteps w, Function.Involutive fun y : Word w => exchange y step.1 step.2 :=
  (shuffleSteps_cascade w).involutive (dvd_of_eq (shuffle_block w))

theorem deshuffle_shuffle (x : Word w) : x.shuffle.deshuffle = x :=
  exchanges_reverse (shuffleSteps_involutive w) x

theorem shuffle_deshuffle (x : Word w) : x.deshuffle.shuffle = x := by
  have hsteps : ∀ step ∈ (shuffleSteps w).reverse,
      Function.Involutive fun y : Word w => exchange y step.1 step.2 :=
    fun step hmem => shuffleSteps_involutive w step (List.mem_reverse.mp hmem)
  have h := exchanges_reverse hsteps x
  rwa [List.reverse_reverse] at h

private theorem sum_range_pairs (f : Nat → Nat) (n : Nat) :
    ∑ i ∈ Finset.range (2 * n), f i = ∑ i ∈ Finset.range n, (f (2 * i) + f (2 * i + 1)) := by
  induction n with
  | zero => rfl
  | succ n ih =>
      rw [Nat.mul_succ, Finset.sum_range_succ, Finset.sum_range_succ, Finset.sum_range_succ, ih,
        Nat.add_assoc]

/-- The ones of a shuffle, counted in pairs, are those of both halves. -/
theorem weight_shuffle (x : Word w) : x.shuffle.weight = x.weight := by
  rw [weight_eq_sum, weight_eq_sum, w.bits_eq_halfBits, sum_range_pairs, Nat.two_mul,
    Finset.sum_range_add, ← Finset.sum_add_distrib]
  apply Finset.sum_congr rfl
  intro i hi
  have hi := Finset.mem_range.mp hi
  rw [testBit_shuffle_even x hi, testBit_shuffle_odd x hi]

/-- In a shuffled word the bits of both halves take turns, and gathering puts them back,
in whatever order the two are done. -/
structure InterleavesHalves (x : Word w) : Prop where
  even : ∀ i < w.halfBits, x.shuffle.toNat.testBit (2 * i) = x.toNat.testBit i
  odd : ∀ i < w.halfBits, x.shuffle.toNat.testBit (2 * i + 1) = x.toNat.testBit (w.halfBits + i)
  gathered : x.shuffle.deshuffle = x
  spread : x.deshuffle.shuffle = x
  low : ∀ i < w.halfBits, x.deshuffle.toNat.testBit i = x.toNat.testBit (2 * i)
  high : ∀ i < w.halfBits, x.deshuffle.toNat.testBit (w.halfBits + i) = x.toNat.testBit (2 * i + 1)
  weight : x.shuffle.weight = x.weight

theorem interleavesHalves (x : Word w) : InterleavesHalves x where
  even _ hi := testBit_shuffle_even x hi
  odd _ hi := testBit_shuffle_odd x hi
  gathered := x.deshuffle_shuffle
  spread := x.shuffle_deshuffle
  low i hi := by rw [← testBit_shuffle_even _ hi, shuffle_deshuffle]
  high i hi := by rw [← testBit_shuffle_odd _ hi, shuffle_deshuffle]
  weight := x.weight_shuffle

/-- Masked exchanges and masked counts do with a word what its bits, one by one, say. -/
theorem shuffle_counts_by_bits (x : Word w) : InterleavesHalves x ∧ CountsZeros x :=
  ⟨interleavesHalves x, countsZeros x⟩

example : shuffle (0x00000000ffffffff : Word .w64) = 0x5555555555555555 := by decide

end CryptoPrimes.Word
