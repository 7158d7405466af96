import CryptoPrimes.InPlace.Prime
import CryptoPrimes.Proofs.InPlace.Prime
import CryptoPrimes.Proofs.Sample.Blocks

/-!
# Samples are the first block in range

The two samplers draw numbers below `m`, one of them without zero.  What both do is
said once, of numbers from `least` on (`BlockSampler`): on values a draw is the
first block of the source in range; in place, in words that held anything, it is
the same; and octets mean the same at both widths.
-/

namespace CryptoPrimes.InPlace

open Limbs Trapping

variable {w : Width} {σ : Type} {m r : Limbs w}

/-- What is drawn in place, if it is, and the source after it. -/
def drawn (p : (Bool × Limbs w) × σ) : Option (Limbs w) × σ :=
  (if p.1.1 then some p.1.2 else none, p.2)

theorem map_drawn {n : Nat} {c : Checked ((Bool × Limbs w) × σ)}
    {c' : Checked (Option (Limbs w) × σ)} (h : Checked.Follows (Draws n) c c') :
    c.map drawn = c' := by
  cases c' with
  | error fault =>
      obtain rfl : c = .error fault := h
      rfl
  | ok answer =>
      obtain ⟨p, rfl, hdraw, hsource, -⟩ := h
      exact congrArg Except.ok (Prod.ext hdraw.symm hsource)

variable [ByteSource σ]

/-! ## Samples in place -/

/-- A source that does not fault fills words with what it serves. -/
theorem follows_drawWords_ask (r : Limbs w) (source : σ) :
    Checked.Follows (Draws r.length) (drawWords ask r source)
      (.ok (CryptoPrimes.drawWords r.length source)) := by
  rw [← (Trapping.drawWords_eq faithful_ask r.length trivial).1]
  exact follows_drawWords ask r source

theorem follows_sampleNonzero (hsize : m.length < sizeLimit) (hr : r.length = m.length)
    (bits fuel : Nat) (source : σ) :
    Checked.Follows (Draws m.length) (sampleNonzero ask m bits fuel r source)
      (CryptoPrimes.sample (fun x => !isZero x && less x m) m.length bits fuel source) := by
  induction fuel generalizing r source with
  | zero => exact .fault _ _
  | succ fuel ih =>
      obtain ⟨⟨⟨served, block⟩, next⟩, hrun, hdraw, hnext, hblock⟩ := follows_drawWords_ask r source
      rw [hr] at hdraw hnext hblock
      rw [sampleNonzero, hrun, Checked.ok_bind, CryptoPrimes.sample]
      generalize CryptoPrimes.drawWords (w := w) m.length source = answer at *
      obtain ⟨draw, rest⟩ := answer
      obtain rfl : draw = if served then some block else none := hdraw
      obtain rfl : next = rest := hnext
      have hblock : block.length = m.length := hblock
      cases served with
      | false => exact .result ⟨rfl, rfl, hblock⟩
      | true =>
          have htrim : (Limbs.trimBits block bits).length = m.length := by
            rw [length_trimBits, hblock]
          dsimp only
          rw [if_pos rfl, if_pos rfl]
          dsimp only
          rw [trimBits_eq (by omega), Checked.ok_bind, compareSame_eq htrim, Checked.ok_bind,
            isLT_compare]
          by_cases hzero : isZero (Limbs.trimBits block bits) = true
          · rw [if_pos hzero, if_neg (by simp [hzero])]
            exact ih htrim next
          · rw [if_neg hzero]
            by_cases hless : less (Limbs.trimBits block bits) m = true
            · rw [if_pos hless, if_pos (by simp [hzero, hless])]
              exact .result ⟨rfl, rfl, htrim⟩
            · rw [if_neg hless, if_neg (by simp [hless])]
              exact ih htrim next

theorem follows_sampleNonzeroBelow (hbits : w.bits * m.length < sizeLimit)
    (hr : r.length = m.length) (fuel : Nat) (source : σ) :
    Checked.Follows (Draws m.length) (sampleNonzeroBelow ask fuel r m source)
      (CryptoPrimes.sampleNonzeroBelow fuel m.length m source) := by
  have hsize : m.length < sizeLimit := (Nat.le_mul_of_pos_left _ w.bits_pos).trans_lt hbits
  unfold sampleNonzeroBelow CryptoPrimes.sampleNonzeroBelow
  rw [Checked.require_of hr, Checked.ok_bind, bitLen_eq hbits, Checked.ok_bind,
    Checked.require_of rfl, Checked.ok_bind]
  split
  · exact .result ⟨rfl, rfl, hr⟩
  · exact follows_sampleNonzero hsize hr _ fuel source

/-- The sampler with zero has been related to its form on values step by step. -/
theorem follows_sampleBelow_ask (hbits : w.bits * m.length < sizeLimit)
    (hr : r.length = m.length) (fuel : Nat) (source : σ) :
    Checked.Follows (Draws m.length) (sampleBelow ask fuel r m source)
      (CryptoPrimes.sampleBelow fuel m.length m source) := by
  have hsize : m.length < sizeLimit := (Nat.le_mul_of_pos_left _ w.bits_pos).trans_lt hbits
  have hwords : w.bits * wordLen m < sizeLimit :=
    (Nat.mul_le_mul_left _ (wordLen_le_length m)).trans_lt hbits
  rw [← (Trapping.sampleBelow_eq faithful_ask fuel hsize hwords source trivial).1]
  exact follows_sampleBelow ask fuel hr m source

/-! ## Both samplers -/

/-- A sampler of numbers from `least` up to `m`, on values and in place. -/
structure BlockSampler (least : Nat)
    (draw : ∀ {w : Width} {σ : Type} [ByteSource σ], Nat → Limbs w → σ →
      Checked (Option (Limbs w) × σ))
    (drawInPlace : ∀ {w : Width} {σ : Type} [ByteSource σ], Nat → Limbs w → Limbs w → σ →
      Checked ((Bool × Limbs w) × σ)) : Prop where
  /-- What is drawn is the first block in range. -/
  first : ∀ {w : Width} (m : Limbs w), least < val m → ∀ {σ : Type} [ByteSource σ],
    FirstAccepted (σ := σ) w m.length (Limbs.bitLen m) (fun v => least ≤ v ∧ v < val m)
      fun fuel source => draw fuel m source
  /-- Without a number in range nothing is drawn. -/
  fails : ∀ {w : Width} (m : Limbs w), val m ≤ least → ∀ {σ : Type} [ByteSource σ] (fuel : Nat)
    (source : σ), draw fuel m source = .ok (none, source)
  /-- A finite source is drawn from until it refuses a word, at the latest. -/
  finite : ∀ {w : Width} (m : Limbs w) (fuel : Nat) (octets : Octets),
    octets.length < fuel * (m.length * w.octets) → ∃ answer rest k,
      draw fuel m (Metered.mk (Finite.mk octets) 0) = .ok (answer, rest) ∧
      rest.served = k * w.octets
  /-- The words that are drawn into may hold anything before. -/
  inPlace : ∀ {w : Width} (m r : Limbs w), w.bits * m.length < sizeLimit → r.length = m.length →
    ∀ {σ : Type} [ByteSource σ] (fuel : Nat) (source : σ),
      (drawInPlace fuel r m source).map drawn = draw fuel m source
  /-- Words of another width draw the same number. -/
  widths : ∀ {w w' : Width} (m : Limbs w) (m' : Limbs w'), val m = val m' →
    m.length * w.octets = m'.length * w'.octets → ∀ (fuel : Nat) (octets : Octets),
      drawnValue (draw fuel m (Finite.mk octets)) = drawnValue (draw fuel m' (Finite.mk octets))

theorem length_pos_of_val {k : Nat} (hm : k < val m) : 0 < m.length := by
  rw [List.length_pos_iff]
  rintro rfl
  exact absurd hm (Nat.not_lt_zero k)

/-- A sampler that samples blocks wherever there is a number in range. -/
theorem blockSampler_of_sample {least : Nat}
    {draw : ∀ {w : Width} {σ : Type} [ByteSource σ], Nat → Limbs w → σ →
      Checked (Option (Limbs w) × σ)}
    {drawInPlace : ∀ {w : Width} {σ : Type} [ByteSource σ], Nat → Limbs w → Limbs w → σ →
      Checked ((Bool × Limbs w) × σ)}
    (accept : ∀ {w : Width}, Limbs w → Limbs w → Bool)
    (haccept : ∀ {w : Width} (m x : Limbs w),
      accept m x = true ↔ least ≤ val x ∧ val x < val m)
    (hfails : ∀ {w : Width} (m : Limbs w), val m ≤ least → ∀ {σ : Type} [ByteSource σ] (fuel : Nat)
      (source : σ), draw fuel m source = .ok (none, source))
    (hdraw : ∀ {w : Width} (m : Limbs w), least < val m → ∀ {σ : Type} [ByteSource σ] (fuel : Nat)
      (source : σ), draw fuel m source =
        CryptoPrimes.sample (accept m) m.length (Limbs.bitLen m) fuel source)
    (hinPlace : ∀ {w : Width} (m r : Limbs w), w.bits * m.length < sizeLimit →
      r.length = m.length → ∀ {σ : Type} [ByteSource σ] (fuel : Nat) (source : σ),
      (drawInPlace fuel r m source).map drawn = draw fuel m source) :
    BlockSampler least draw drawInPlace := by
  have hfirst {w : Width} (m : Limbs w) (hm : least < val m) {σ : Type} [ByteSource σ] :
      FirstAccepted (σ := σ) w m.length (Limbs.bitLen m) (fun v => least ≤ v ∧ v < val m)
        fun fuel source => draw fuel m source := by
    simp only [hdraw m hm]
    exact firstAccepted_sample (haccept m) (length_pos_of_val hm)
  refine ⟨hfirst, hfails, ?_, hinPlace, ?_⟩
  · intro w m fuel octets hfuel
    rcases Nat.lt_or_ge least (val m) with hm | hm
    · have hrefused : (serveWords w (fuel * m.length) (Finite.mk octets)).1 = none :=
        Finite.serveWords_of_lt (by rwa [Nat.mul_assoc])
      obtain ⟨answer, rest, k, hrun, hserved⟩ := (hfirst m hm).ends _ 0 _ hrefused fuel le_rfl
      exact ⟨answer, rest, k, hrun, by rw [hserved, Nat.zero_add]⟩
    · exact ⟨none, _, 0, hfails m hm fuel _, (Nat.zero_mul _).symm⟩
  · intro w w' m m' hval hoctets fuel octets
    rcases Nat.lt_or_ge least (val m) with hm | hm
    · have hbits : Limbs.bitLen m = Limbs.bitLen m' := by rw [bitLen_eq_size, bitLen_eq_size, hval]
      have haccept' (x : Limbs w') : accept m' x = true ↔ least ≤ val x ∧ val x < val m := by
        rw [haccept, hval]
      rw [hdraw m hm, hdraw m' (hval ▸ hm), hbits]
      exact drawnValue_sample (fun v => least ≤ v ∧ v < val m) (haccept m) haccept' hoctets fuel
        octets
    · rw [hfails m hm, hfails m' (hval ▸ hm)]
      rfl

/-- Both samplers draw the first block in range. -/
theorem samplers_draw_first_block :
    BlockSampler 0 (fun fuel m source => CryptoPrimes.sampleBelow fuel m.length m source)
        (sampleBelow ask) ∧
      BlockSampler 1 (fun fuel m source => CryptoPrimes.sampleNonzeroBelow fuel m.length m source)
        (sampleNonzeroBelow ask) := by
  constructor
  · refine blockSampler_of_sample (fun m x => less x m) (fun m x => ?_) (fun m hm => ?_)
      (fun m hm => ?_) fun m r hbits hr => ?_
    · rw [less_iff]
      exact (and_iff_right (Nat.zero_le _)).symm
    · exact sampleBelow_zero (Nat.le_zero.mp hm)
    · exact sampleBelow_pos (Nat.pos_iff_ne_zero.mp hm)
    · exact fun fuel source => map_drawn (follows_sampleBelow_ask hbits hr fuel source)
  · refine blockSampler_of_sample (fun m x => !isZero x && less x m)
      (fun m x => nonzero_less_iff x m) (fun m hm => sampleNonzeroBelow_le_one hm)
      (fun m hm => sampleNonzeroBelow_gt_one hm) fun m r hbits hr => ?_
    exact fun fuel source => map_drawn (follows_sampleNonzeroBelow hbits hr fuel source)

/-- Two blocks are rejected, and the third is drawn over them. -/
example : (sampleBelow ask 3 ([7] : Limbs .w32) [3]
    (Metered.mk (Finite.mk (List.replicate 8 255 ++ [1, 0, 0, 0])) 0)).map
      (fun p => (p.1, p.2.served)) = .ok ((true, [1]), 12) := by rfl

end CryptoPrimes.InPlace
