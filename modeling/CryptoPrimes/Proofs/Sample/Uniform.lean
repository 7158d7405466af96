import Mathlib.Data.Int.CardIntervalMod
import Mathlib.Data.Set.Card
import Mathlib.Tactic.FieldSimp
import CryptoPrimes.Proofs.Sample

/-!
# Samples are uniform

The source decides a sample through blocks of words.  A block yields a number, or it
is rejected and the sample goes on behind it; which of both depends on nothing but
the low bits of the block (`yields_sample_iff`, `rejects_sample`).  As many blocks
have given low bits as there are ways to choose the others (`card_low_bits`), so
every number in range is yielded by equally many (`UniformDraw`).
-/

namespace CryptoPrimes

open Limbs

variable {w : Width}

/-! ## What a block yields -/

/-- Draws from any source that serves the words of `block` first end with the number
`v`, in as many words, and with the source behind the block. -/
def Yields (draw : ∀ {σ : Type} [ByteSource σ], Nat → σ → Checked (Option (Limbs w) × σ))
    (block : Limbs w) (v : Nat) : Prop :=
  ∀ {σ : Type} [ByteSource σ] (source rest : σ),
    drawWords block.length source = (some block, rest) → ∀ fuel, ∃ x : Limbs w,
      draw (fuel + 1) source = .ok (some x, rest) ∧ x.length = block.length ∧ val x = v

/-- Draws from any source that serves the words of `block` first go on with the source
behind the block. -/
def Rejects (draw : ∀ {σ : Type} [ByteSource σ], Nat → σ → Checked (Option (Limbs w) × σ))
    (block : Limbs w) : Prop :=
  ∀ {σ : Type} [ByteSource σ] (source rest : σ),
    drawWords block.length source = (some block, rest) → ∀ fuel,
      draw (fuel + 1) source = draw fuel rest

section

variable {bits : Nat} {inRange : Nat → Prop} {accept : Limbs w → Bool}
  (haccept : ∀ x, accept x = true ↔ inRange (val x))

include haccept

theorem yields_sample_iff (block : Limbs w) (v : Nat) :
    Yields (sample accept block.length bits) block v ↔
      inRange v ∧ val block % 2 ^ bits = v := by
  constructor
  · intro h
    -- one source that serves the block decides
    have hserved := drawWords_toOctets block []
    obtain ⟨x, hdraw, -, hval⟩ := h _ _ hserved 0
    have hdraw := (sample_drawn hserved 0).symm.trans hdraw
    split at hdraw
    · next htake =>
      obtain rfl : trimBits block bits = x := by simpa using hdraw
      rw [haccept, hval] at htake
      exact ⟨htake, by rw [← val_trimBits, hval]⟩
    · cases hdraw
  · rintro ⟨hrange, hval⟩ σ _ source rest hserved fuel
    have hval : val (trimBits block bits) = v := by rw [val_trimBits, hval]
    have htake : accept (trimBits block bits) = true := (haccept _).mpr (hval ▸ hrange)
    exact ⟨trimBits block bits, (sample_drawn hserved fuel).trans (if_pos htake),
      length_trimBits _ _, hval⟩

theorem rejects_sample {block : Limbs w} (h : ¬ inRange (val block % 2 ^ bits)) :
    Rejects (sample accept block.length bits) block := by
  intro σ _ source rest hserved fuel
  have hreject : ¬ accept (trimBits block bits) = true := by rwa [haccept, val_trimBits]
  exact (sample_drawn hserved fuel).trans (if_neg hreject)

end

/-! ## Counting blocks -/

/-- Blocks of `n` words are numbers below the radix. -/
theorem ncard_blocks (n : Nat) (p : Nat → Prop) [DecidablePred p] :
    {block : Limbs w | block.length = n ∧ p (val block)}.ncard =
      ((Finset.range (2 ^ (w.bits * n))).filter p).card := by
  have hblocks : {block : Limbs w | block.length = n ∧ p (val block)} =
      ofNat n '' ((Finset.range (2 ^ (w.bits * n))).filter p : Finset Nat) := by
    ext block
    simp only [Set.mem_ofPred_eq, Finset.coe_filter, Finset.mem_range, Set.mem_image]
    constructor
    · rintro ⟨rfl, hp⟩
      exact ⟨val block, ⟨val_lt block, hp⟩, (eq_ofNat rfl rfl).symm⟩
    · rintro ⟨v, ⟨hv, hp⟩, rfl⟩
      exact ⟨length_ofNat n v, by rwa [val_ofNat_of_lt hv]⟩
  have hinjective : Set.InjOn (ofNat n : Nat → Limbs w)
      ((Finset.range (2 ^ (w.bits * n))).filter p : Finset Nat) := by
    intro x hx y hy h
    rw [Finset.coe_filter, Set.mem_ofPred_eq, Finset.mem_range] at hx hy
    rw [← val_ofNat_of_lt hx.1, ← val_ofNat_of_lt hy.1, h]
  rw [hblocks, hinjective.ncard_image, Set.ncard_coe_finset]

/-- As many numbers have given low bits as there are ways to choose the others. -/
theorem card_low_bits {bits total v : Nat} (hbits : bits ≤ total) (hv : v < 2 ^ bits) :
    ((Finset.range (2 ^ total)).filter fun x => x % 2 ^ bits = v).card = 2 ^ (total - bits) := by
  have hsplit : 2 ^ total = 2 ^ (total - bits) * 2 ^ bits := by
    rw [← Nat.pow_add, Nat.sub_add_cancel hbits]
  have hcount := Nat.count_modEq_card (2 ^ total) (Nat.two_pow_pos bits) v
  rw [hsplit, Nat.mul_div_cancel _ (Nat.two_pow_pos bits), Nat.mul_mod_left,
    if_neg (Nat.not_lt_zero _), Nat.add_zero, Nat.count_eq_card_filter_range, ← hsplit] at hcount
  simpa only [Nat.ModEq, Nat.mod_eq_of_lt hv] using hcount

/-- The same of low bits in a set. -/
theorem card_low_bits_mem {bits total : Nat} {range : Finset Nat} (hbits : bits ≤ total)
    (hrange : ∀ v ∈ range, v < 2 ^ bits) :
    ((Finset.range (2 ^ total)).filter fun x => x % 2 ^ bits ∈ range).card =
      range.card * 2 ^ (total - bits) := by
  have hmaps : Set.MapsTo (· % 2 ^ bits)
      ((Finset.range (2 ^ total)).filter fun x => x % 2 ^ bits ∈ range : Finset Nat) range :=
    fun x hx => (Finset.mem_filter.mp hx).2
  rw [Finset.card_eq_sum_card_fiberwise hmaps]
  refine Finset.sum_const_nat fun v hv => ?_
  rw [← card_low_bits hbits (hrange v hv), Finset.filter_filter]
  congr 1
  refine Finset.filter_congr fun x _ => ?_
  exact ⟨fun h => h.2, fun h => ⟨h ▸ hv, h⟩⟩

/-! ## Uniform draws -/

/-- What a draw makes of all blocks of `n` words.  Every number in the range has as
many blocks that yield it as there are ways to choose the bits above `bits`; all
other blocks are rejected. -/
structure UniformDraw (n bits : Nat) (range : Finset Nat)
    (draw : ∀ {σ : Type} [ByteSource σ], Nat → σ → Checked (Option (Limbs w) × σ)) : Prop where
  total : {block : Limbs w | block.length = n}.ncard = 2 ^ (w.bits * n)
  yielded : ∀ v ∈ range, {block : Limbs w | block.length = n ∧ Yields draw block v}.ncard =
    2 ^ (w.bits * n - bits)
  inside : ∀ block v, block.length = n → Yields draw block v → v ∈ range
  rejected : ∀ block, block.length = n → (∀ v, ¬ Yields draw block v) → Rejects draw block
  accepted : {block : Limbs w | block.length = n ∧ ∃ v, Yields draw block v}.ncard =
    range.card * 2 ^ (w.bits * n - bits)
  /-- Of the blocks that yield a number, every number has the same share. -/
  share : ∀ v ∈ range,
    ({block : Limbs w | block.length = n ∧ Yields draw block v}.ncard : ℚ) /
      {block : Limbs w | block.length = n ∧ ∃ v, Yields draw block v}.ncard = 1 / range.card

theorem uniformDraw_sample {n bits : Nat} {range : Finset Nat} {accept : Limbs w → Bool}
    (haccept : ∀ x, accept x = true ↔ val x ∈ range) (hbits : bits ≤ w.bits * n)
    (hrange : ∀ v ∈ range, v < 2 ^ bits) : UniformDraw n bits range (sample accept n bits) := by
  have hyields (block : Limbs w) (hblock : block.length = n) (v : Nat) :
      Yields (sample accept n bits) block v ↔ v ∈ range ∧ val block % 2 ^ bits = v := by
    subst hblock
    exact yields_sample_iff haccept block v
  have hyielded (v : Nat) (hv : v ∈ range) :
      {block : Limbs w | block.length = n ∧ Yields (sample accept n bits) block v}.ncard =
        2 ^ (w.bits * n - bits) := by
    rw [← card_low_bits hbits (hrange v hv), ← ncard_blocks (w := w)]
    congr 1
    ext block
    exact and_congr_right fun hblock => (hyields block hblock v).trans (and_iff_right hv)
  have haccepted :
      {block : Limbs w | block.length = n ∧ ∃ v, Yields (sample accept n bits) block v}.ncard =
        range.card * 2 ^ (w.bits * n - bits) := by
    rw [← card_low_bits_mem hbits hrange, ← ncard_blocks (w := w)]
    congr 1
    ext block
    refine and_congr_right fun hblock => ?_
    simp only [hyields block hblock]
    exact ⟨fun ⟨v, hv, hval⟩ => hval ▸ hv, fun hv => ⟨_, hv, rfl⟩⟩
  refine ⟨?_, hyielded, fun block v hblock h => ((hyields block hblock v).mp h).1, ?_, haccepted,
    ?_⟩
  · have hall := ncard_blocks (w := w) n fun _ => True
    simpa using hall
  · intro block hblock hnone
    subst hblock
    exact rejects_sample haccept fun hv => hnone _ ((hyields block rfl _).mpr ⟨hv, rfl⟩)
  · intro v hv
    have hpos : (2 ^ (w.bits * n - bits) : ℚ) ≠ 0 := pow_ne_zero _ two_ne_zero
    rw [hyielded v hv, haccepted, Nat.cast_mul, Nat.cast_pow, Nat.cast_two,
      div_mul_cancel_right₀ hpos, one_div]

theorem bitLen_le_bits (m : Limbs w) : bitLen m ≤ w.bits * m.length := by
  rw [bitLen_eq_size, Nat.size_le]
  exact val_lt m

theorem lt_two_pow_bitLen {m : Limbs w} {v : Nat} (hv : v < val m) : v < 2 ^ bitLen m := by
  rw [bitLen_eq_size]
  exact hv.trans (Nat.lt_size_self _)

/-- A number is at least half of the numbers of its bit length. -/
theorem half_le_val {m : Limbs w} (hm : val m ≠ 0) {total : Nat} (hbits : bitLen m ≤ total) :
    2 ^ total ≤ 2 * (val m * 2 ^ (total - bitLen m)) := by
  obtain ⟨low, hlow⟩ : ∃ low, bitLen m = low + 1 :=
    Nat.exists_eq_succ_of_ne_zero (by rwa [bitLen_eq_size, Ne, Nat.size_eq_zero])
  have hle : 2 ^ low ≤ val m := Nat.lt_size.mp (by rw [← bitLen_eq_size, hlow]; omega)
  calc 2 ^ total = 2 ^ bitLen m * 2 ^ (total - bitLen m) := by
        rw [← Nat.pow_add, Nat.add_sub_cancel' hbits]
    _ = 2 * (2 ^ low * 2 ^ (total - bitLen m)) := by
        rw [hlow, Nat.pow_succ', Nat.mul_assoc]
    _ ≤ 2 * (val m * 2 ^ (total - bitLen m)) :=
        Nat.mul_le_mul_left _ (Nat.mul_le_mul_right _ hle)

theorem uniformDraw_sampleBelow {m : Limbs w} (hm : val m ≠ 0) :
    UniformDraw m.length (bitLen m) (Finset.range (val m))
      fun fuel source => sampleBelow fuel m.length m source := by
  simp only [sampleBelow_pos hm]
  refine uniformDraw_sample (fun x => ?_) (bitLen_le_bits m) fun v hv => ?_
  · rw [less_iff, Finset.mem_range]
  · exact lt_two_pow_bitLen (Finset.mem_range.mp hv)

theorem uniformDraw_sampleNonzeroBelow {m : Limbs w} (hm : 2 ≤ val m) :
    UniformDraw m.length (bitLen m) (Finset.Ico 1 (val m))
      fun fuel source => sampleNonzeroBelow fuel m.length m source := by
  simp only [sampleNonzeroBelow_gt_one hm]
  refine uniformDraw_sample (fun x => ?_) (bitLen_le_bits m) fun v hv => ?_
  · rw [nonzero_less_iff, Finset.mem_Ico]
  · exact lt_two_pow_bitLen (Finset.mem_Ico.mp hv).2

/-- The samplers favour no number, and a number below `m` is drawn from at least every
second block. -/
theorem samplers_uniform (w : Width) (m : Limbs w) (hm : val m ≠ 0) :
    UniformDraw m.length (bitLen m) (Finset.range (val m))
        (fun fuel source => sampleBelow fuel m.length m source) ∧
      2 ^ (w.bits * m.length) ≤ 2 * {block : Limbs w | block.length = m.length ∧
        ∃ v, Yields (fun fuel source => sampleBelow fuel m.length m source) block v}.ncard ∧
      (2 ≤ val m → UniformDraw m.length (bitLen m) (Finset.Ico 1 (val m))
        fun fuel source => sampleNonzeroBelow fuel m.length m source) := by
  have huniform := uniformDraw_sampleBelow hm
  refine ⟨huniform, ?_, uniformDraw_sampleNonzeroBelow⟩
  rw [huniform.accepted, Finset.card_range]
  exact half_le_val hm (bitLen_le_bits m)

/-- Below three, in a word of 32 bits: each of zero, one and two is yielded by a
quarter of all words, and without zero the other two are. -/
theorem samplers_uniform_three :
    val ([3] : Limbs .w32) ≠ 0 ∧ 2 ≤ val ([3] : Limbs .w32) ∧
      (∀ v ∈ Finset.range 3, {block : Limbs .w32 | block.length = 1 ∧
        Yields (fun fuel source => sampleBelow fuel 1 [3] source) block v}.ncard = 2 ^ 30) ∧
      ∀ v ∈ Finset.Ico 1 3, {block : Limbs .w32 | block.length = 1 ∧
        Yields (fun fuel source => sampleNonzeroBelow fuel 1 [3] source) block v}.ncard = 2 ^ 30 :=
  ⟨by decide, by decide, (samplers_uniform .w32 [3] (by decide)).1.yielded,
    ((samplers_uniform .w32 [3] (by decide)).2.2 (by decide)).yielded⟩

end CryptoPrimes
