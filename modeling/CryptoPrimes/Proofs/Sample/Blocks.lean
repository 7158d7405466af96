import CryptoPrimes.Proofs.Limbs.Octets
import CryptoPrimes.Proofs.Sample
import CryptoPrimes.Proofs.Source

/-!
# The block that a sample is

A source that is asked for word after word serves an octet string, as long as it
serves at all (`serveWords`).  Cut into blocks of `n` words, each read as a number
and reduced to its low bits (`blockValue`), this string says what rejection
sampling ends with: the first block in range, of which all that comes before was
served and rejected.

* `Passed i source octets next`: the source serves `i` blocks and none is in
  range; the next round starts from `next` (`sample_passed`).
* `exists_outcome`: behind some number of blocks that are passed comes one in
  range, or one that the source does not serve in full, or the fuel is used up.

`FirstAccepted` reads the result of a draw off the source, with the octets that a
`Metered` source has counted.
-/

namespace CryptoPrimes

open Limbs

variable {w : Width} {σ : Type} [ByteSource σ]

theorem drawWords_eq_serveWords (n : Nat) (source : σ) :
    drawWords (w := w) n source =
      ((serveWords w n source).1.map (ofOctets n), (serveWords w n source).2) := by
  induction n generalizing source with
  | zero => rfl
  | succ n ih =>
      rw [drawWords, serveWords]
      cases hrequest : ByteSource.request source w.octets with
      | mk answer next =>
          cases answer with
          | none => rfl
          | some word =>
              have hword : word.length = w.octets := ByteSource.length_request (by rw [hrequest])
              simp only [serveThen, ih, Option.map_map]
              congr 2
              funext later
              simp [ofOctets, List.take_left' hword, List.drop_left' hword]

/-! ## Rounds -/

/-- The number that block `i` of `n` words stands for, reduced to its low `bits`
bits. -/
def blockValue (w : Width) (n bits : Nat) (octets : Octets) (i : Nat) : Nat :=
  Octets.val ((octets.drop (i * (n * w.octets))).take (n * w.octets)) % 2 ^ bits

section

variable {n bits i j : Nat} {low high : Octets}

/-- A block is found among the octets up to its end. -/
theorem blockValue_append (h : low.length = i * (n * w.octets)) (hj : j < i) (high : Octets) :
    blockValue w n bits (low ++ high) j = blockValue w n bits low j := by
  have hend : j * (n * w.octets) + n * w.octets ≤ low.length := by
    rw [h, ← Nat.succ_mul]
    exact Nat.mul_le_mul_right _ hj
  rw [blockValue, blockValue, List.drop_append_of_le_length (by omega),
    List.take_append_of_le_length (by rw [List.length_drop]; omega)]

theorem blockValue_last (bits : Nat) (hlow : low.length = i * (n * w.octets))
    (hhigh : high.length = n * w.octets) :
    blockValue w n bits (low ++ high) i = Octets.val high % 2 ^ bits := by
  rw [blockValue, List.drop_left' hlow, List.take_of_length_le hhigh.le]

end

/-- The source serves `i` blocks of `n` words, none of them in range. -/
structure Passed (w : Width) (n bits : Nat) (inRange : Nat → Prop) (i : Nat) (source : σ)
    (octets : Octets) (rest : σ) : Prop where
  served : serveWords w (i * n) source = (some octets, rest)
  outside : ∀ j < i, ¬ inRange (blockValue w n bits octets j)

section

variable {n bits i fuel : Nat} {inRange : Nat → Prop} {accept : Limbs w → Bool}
  {source middle rest : σ} {low high octets : Octets}

theorem Passed.length (h : Passed w n bits inRange i source octets rest) :
    octets.length = i * (n * w.octets) := by
  rw [length_serveWords h.served, Nat.mul_assoc]

theorem passed_zero_iff :
    Passed w n bits inRange 0 source octets rest ↔ octets = [] ∧ rest = source := by
  constructor
  · intro h
    have h := h.served
    rw [Nat.zero_mul] at h
    cases h
    exact ⟨rfl, rfl⟩
  · rintro ⟨rfl, rfl⟩
    exact ⟨by rw [Nat.zero_mul]; rfl, fun _ h => absurd h (Nat.not_lt_zero _)⟩

/-- Blocks that are passed, and one more that is served. -/
theorem served_block_iff :
    (serveWords w ((i + 1) * n) source = (some octets, rest) ∧
        ∀ j < i, ¬ inRange (blockValue w n bits octets j)) ↔
      ∃ low middle high, Passed w n bits inRange i source low middle ∧
        serveWords w n middle = (some high, rest) ∧ octets = low ++ high ∧
        blockValue w n bits octets i = Octets.val high % 2 ^ bits := by
  rw [Nat.succ_mul, serveWords_add, serveThen_some_iff]
  constructor
  · rintro ⟨⟨low, middle, high, hlow, hhigh, rfl⟩, houtside⟩
    have hlength : low.length = i * (n * w.octets) := by rw [length_serveWords hlow, Nat.mul_assoc]
    refine ⟨low, middle, high, ⟨hlow, fun j hj => ?_⟩, hhigh, rfl,
      blockValue_last bits hlength (length_serveWords hhigh)⟩
    rw [← blockValue_append hlength hj high]
    exact houtside j hj
  · rintro ⟨low, middle, high, hlow, hhigh, rfl, -⟩
    refine ⟨⟨low, middle, high, hlow.served, hhigh, rfl⟩, fun j hj => ?_⟩
    rw [blockValue_append hlow.length hj]
    exact hlow.outside j hj

theorem passed_succ_iff : Passed w n bits inRange (i + 1) source octets rest ↔
    ∃ low middle high, Passed w n bits inRange i source low middle ∧
      serveWords w n middle = (some high, rest) ∧ octets = low ++ high ∧
      ¬ inRange (Octets.val high % 2 ^ bits) := by
  constructor
  · rintro ⟨hserved, houtside⟩
    obtain ⟨low, middle, high, hlow, hhigh, rfl, hlast⟩ :=
      served_block_iff.mp ⟨hserved, fun j hj => houtside j (by omega)⟩
    exact ⟨low, middle, high, hlow, hhigh, rfl, hlast ▸ houtside i (Nat.lt_succ_self i)⟩
  · rintro ⟨low, middle, high, hlow, hhigh, rfl, hlast⟩
    have hvalue := blockValue_last bits hlow.length (length_serveWords hhigh)
    obtain ⟨hserved, houtside⟩ :=
      served_block_iff.mpr ⟨low, middle, high, hlow, hhigh, rfl, hvalue⟩
    refine ⟨hserved, fun j hj => ?_⟩
    rcases Nat.lt_succ_iff_lt_or_eq.mp hj with hj | rfl
    · exact houtside j hj
    · rwa [hvalue]

/-- Blocks that are passed, and one more that is refused at some word. -/
theorem refused_block_iff (hn : 0 < n) :
    (∃ k octets middle, k / n = i ∧ serveWords w k source = (some octets, middle) ∧
        ByteSource.request middle w.octets = (none, rest) ∧
        ∀ j < i, ¬ inRange (blockValue w n bits octets j)) ↔
      ∃ low middle, Passed w n bits inRange i source low middle ∧
        serveWords w n middle = (none, rest) := by
  simp only [serveWords_none_iff]
  constructor
  · rintro ⟨k, octets, middle, rfl, hserved, hrefused, houtside⟩
    rw [← Nat.div_add_mod' k n, serveWords_add, serveThen_some_iff] at hserved
    obtain ⟨low, between, high, hlow, hhigh, rfl⟩ := hserved
    have hlength : low.length = k / n * (n * w.octets) := by
      rw [length_serveWords hlow, Nat.mul_assoc]
    refine ⟨low, between, ⟨hlow, fun j hj => ?_⟩, k % n, Nat.mod_lt k hn, high, middle, hhigh,
      hrefused⟩
    rw [← blockValue_append hlength hj high]
    exact houtside j hj
  · rintro ⟨low, between, hlow, k, hk, high, middle, hhigh, hrefused⟩
    refine ⟨i * n + k, low ++ high, middle, ?_, ?_, hrefused, fun j hj => ?_⟩
    · rw [Nat.mul_comm, Nat.mul_add_div hn, Nat.div_eq_of_lt hk, Nat.add_zero]
    · rw [serveWords_add, serveThen_some_iff]
      exact ⟨low, between, high, hlow.served, hhigh, rfl⟩
    · rw [blockValue_append hlow.length hj]
      exact hlow.outside j hj

/-- A block that is served is a number of `n` words, which is taken or passed. -/
theorem sample_served (accept : Limbs w → Bool) (bits : Nat)
    (h : serveWords w n source = (some octets, rest)) (fuel : Nat) :
    ∃ x : Limbs w, x.length = n ∧ val x = Octets.val octets % 2 ^ bits ∧
      sample accept n bits (fuel + 1) source =
        if accept x then .ok (some x, rest) else sample accept n bits fuel rest := by
  have hdraw : drawWords n source = (some (ofOctets n octets : Limbs w), rest) := by
    rw [drawWords_eq_serveWords, h]
    rfl
  refine ⟨trimBits (ofOctets n octets) bits, ?_, ?_, sample_drawn hdraw fuel⟩
  · rw [length_trimBits, length_ofOctets]
  · rw [val_trimBits, val_ofOctets (length_serveWords h).le]

theorem sample_refused (h : serveWords w n source = (none, rest)) (fuel : Nat) :
    sample (w := w) accept n bits (fuel + 1) source = .ok (none, rest) := by
  rw [sample, drawWords_eq_serveWords, h]
  rfl

variable (haccept : ∀ x, accept x = true ↔ inRange (val x))

include haccept

/-- Blocks out of range are passed. -/
theorem sample_passed (h : Passed w n bits inRange i source octets rest) (fuel : Nat) :
    sample accept n bits (i + fuel) source = sample accept n bits fuel rest := by
  induction i generalizing octets rest fuel with
  | zero =>
      obtain ⟨-, rfl⟩ := passed_zero_iff.mp h
      rw [Nat.zero_add]
  | succ i ih =>
      obtain ⟨low, middle, high, hlow, hhigh, -, hlast⟩ := passed_succ_iff.mp h
      obtain ⟨x, -, hval, hsample⟩ := sample_served accept bits hhigh fuel
      have hreject : ¬ accept x = true := by rwa [haccept, hval]
      rw [Nat.succ_add_eq_add_succ, ih hlow, hsample, if_neg hreject]

/-- The first block in range is taken. -/
theorem sample_accepts (hpassed : Passed w n bits inRange i source low middle)
    (hserved : serveWords w n middle = (some high, rest))
    (hrange : inRange (Octets.val high % 2 ^ bits)) (hfuel : i < fuel) :
    ∃ x, sample accept n bits fuel source = .ok (some x, rest) ∧ x.length = n ∧
      val x = Octets.val high % 2 ^ bits := by
  obtain ⟨spare, rfl⟩ := Nat.exists_eq_add_of_lt hfuel
  obtain ⟨x, hlength, hval, hsample⟩ :=
    sample_served accept bits hserved spare
  have htake : accept x = true := by rwa [haccept, hval]
  refine ⟨x, ?_, hlength, hval⟩
  rw [Nat.add_assoc, sample_passed haccept hpassed, hsample, if_pos htake]

/-- A block that is not served in full ends the sample. -/
theorem sample_refuses (hpassed : Passed w n bits inRange i source low middle)
    (hrefused : serveWords w n middle = (none, rest)) (hfuel : i < fuel) :
    sample accept n bits fuel source = .ok (none, rest) := by
  obtain ⟨spare, rfl⟩ := Nat.exists_eq_add_of_lt hfuel
  rw [Nat.add_assoc, sample_passed haccept hpassed, sample_refused hrefused]

/-- No fuel is left behind as many blocks as there was fuel for. -/
theorem sample_runs_out (hpassed : Passed w n bits inRange fuel source low middle) :
    sample accept n bits fuel source = .error .outOfFuel := by
  have h := sample_passed haccept hpassed 0
  rwa [Nat.add_zero] at h

omit haccept

/-- How a sample can end, seen from its source. -/
theorem exists_outcome (w : Width) (n bits : Nat) (inRange : Nat → Prop) (fuel : Nat) (source : σ) :
    (∃ i < fuel, ∃ low middle high rest, Passed w n bits inRange i source low middle ∧
      serveWords w n middle = (some high, rest) ∧ inRange (Octets.val high % 2 ^ bits)) ∨
    (∃ i < fuel, ∃ low middle rest, Passed w n bits inRange i source low middle ∧
      serveWords w n middle = (none, rest)) ∨
    ∃ octets rest, Passed w n bits inRange fuel source octets rest := by
  induction fuel with
  | zero => exact .inr (.inr ⟨[], source, passed_zero_iff.mpr ⟨rfl, rfl⟩⟩)
  | succ fuel ih =>
      rcases ih with ⟨i, hi, h⟩ | ⟨i, hi, h⟩ | ⟨low, middle, hpassed⟩
      · exact .inl ⟨i, by omega, h⟩
      · exact .inr (.inl ⟨i, by omega, h⟩)
      · cases hserved : serveWords w n middle with
        | mk answer rest =>
            cases answer with
            | none => exact .inr (.inl ⟨fuel, by omega, low, middle, rest, hpassed, hserved⟩)
            | some high =>
                by_cases hrange : inRange (Octets.val high % 2 ^ bits)
                · exact .inl ⟨fuel, by omega, low, middle, high, rest, hpassed, hserved, hrange⟩
                · exact .inr (.inr ⟨low ++ high, rest,
                    passed_succ_iff.mpr ⟨low, middle, high, hpassed, hserved, rfl, hrange⟩⟩)

include haccept

/-- A sample is the first block in range. -/
theorem sample_some_iff {x : Limbs w} :
    sample accept n bits fuel source = .ok (some x, rest) ↔
      x.length = n ∧ ∃ i < fuel, ∃ octets,
        serveWords w ((i + 1) * n) source = (some octets, rest) ∧
        val x = blockValue w n bits octets i ∧ inRange (val x) ∧
        ∀ j < i, ¬ inRange (blockValue w n bits octets j) := by
  constructor
  · intro h
    rcases exists_outcome w n bits inRange fuel source with
      ⟨i, hi, low, middle, high, rest', hpassed, hserved, hrange⟩ |
      ⟨i, hi, low, middle, rest', hpassed, hrefused⟩ | ⟨octets, rest', hpassed⟩
    · obtain ⟨y, hsample, hlength, hval⟩ := sample_accepts haccept hpassed hserved hrange hi
      obtain ⟨rfl, rfl⟩ : y = x ∧ rest' = rest := by simpa using hsample.symm.trans h
      have hvalue := blockValue_last bits hpassed.length (length_serveWords hserved)
      obtain ⟨hblocks, houtside⟩ :=
        served_block_iff.mpr ⟨low, middle, high, hpassed, hserved, rfl, hvalue⟩
      exact ⟨hlength, i, hi, low ++ high, hblocks, hval.trans hvalue.symm, hval ▸ hrange, houtside⟩
    · exact nomatch (sample_refuses haccept hpassed hrefused hi).symm.trans h
    · exact nomatch (sample_runs_out haccept hpassed).symm.trans h
  · rintro ⟨hlength, i, hi, octets, hblocks, hval, hrange, houtside⟩
    obtain ⟨low, middle, high, hpassed, hserved, rfl, hvalue⟩ :=
      served_block_iff.mp ⟨hblocks, houtside⟩
    rw [hvalue] at hval
    obtain ⟨y, hsample, hlength', hval'⟩ :=
      sample_accepts haccept hpassed hserved (hval ▸ hrange) hi
    rwa [val_inj (hlength'.trans hlength.symm) (hval'.trans hval.symm)] at hsample

/-- A sample fails with its source. -/
theorem sample_none_iff (hn : 0 < n) :
    sample accept n bits fuel source = .ok (none, rest) ↔
      ∃ k octets middle, k / n < fuel ∧ serveWords w k source = (some octets, middle) ∧
        ByteSource.request middle w.octets = (none, rest) ∧
        ∀ j < k / n, ¬ inRange (blockValue w n bits octets j) := by
  constructor
  · intro h
    rcases exists_outcome w n bits inRange fuel source with
      ⟨i, hi, low, middle, high, rest', hpassed, hserved, hrange⟩ |
      ⟨i, hi, low, middle, rest', hpassed, hrefused⟩ | ⟨octets, rest', hpassed⟩
    · obtain ⟨y, hsample, -⟩ := sample_accepts haccept hpassed hserved hrange hi
      exact nomatch hsample.symm.trans h
    · have hsample := sample_refuses haccept hpassed hrefused hi
      obtain rfl : rest' = rest := by simpa using hsample.symm.trans h
      obtain ⟨k, octets, middle, rfl, hblocks⟩ :=
        (refused_block_iff hn).mpr ⟨low, middle, hpassed, hrefused⟩
      exact ⟨k, octets, middle, hi, hblocks⟩
    · exact nomatch (sample_runs_out haccept hpassed).symm.trans h
  · rintro ⟨k, octets, middle, hk, hblocks⟩
    obtain ⟨low, middle, hpassed, hrefused⟩ :=
      (refused_block_iff hn).mp ⟨k, octets, middle, rfl, hblocks⟩
    exact sample_refuses haccept hpassed hrefused hk

/-- A sample runs out of fuel over blocks that are passed, and faults for no other
reason. -/
theorem sample_error_iff {fault : Fault} :
    sample accept n bits fuel source = .error fault ↔
      fault = .outOfFuel ∧ ∃ octets rest, Passed w n bits inRange fuel source octets rest := by
  constructor
  · intro h
    rcases exists_outcome w n bits inRange fuel source with
      ⟨i, hi, low, middle, high, rest', hpassed, hserved, hrange⟩ |
      ⟨i, hi, low, middle, rest', hpassed, hrefused⟩ | ⟨octets, rest', hpassed⟩
    · obtain ⟨y, hsample, -⟩ := sample_accepts haccept hpassed hserved hrange hi
      exact nomatch hsample.symm.trans h
    · exact nomatch (sample_refuses haccept hpassed hrefused hi).symm.trans h
    · exact ⟨Except.error.inj (h.symm.trans (sample_runs_out haccept hpassed)), octets, rest',
        hpassed⟩
  · rintro ⟨rfl, octets, rest', hpassed⟩
    exact sample_runs_out haccept hpassed

end

/-! ## The first block in range -/

/-- A draw of `n` words from a metered source takes the first block in range, and
the octets up to the end of this block.  It fails with the source, at the first
word that is refused.  It ends if its fuel is enough for a block in range, or for
as many words as the source serves. -/
structure FirstAccepted (w : Width) (n bits : Nat) (inRange : Nat → Prop)
    (draw : Nat → Metered σ → Checked (Option (Limbs w) × Metered σ)) : Prop where
  accepts : ∀ fuel source taken x rest, draw fuel ⟨source, taken⟩ = .ok (some x, rest) ↔
    x.length = n ∧ ∃ i < fuel, ∃ octets,
      serveWords w ((i + 1) * n) source = (some octets, rest.source) ∧
      rest.served = taken + (i + 1) * n * w.octets ∧
      val x = blockValue w n bits octets i ∧ inRange (val x) ∧
      ∀ j < i, ¬ inRange (blockValue w n bits octets j)
  refuses : ∀ fuel source taken rest, draw fuel ⟨source, taken⟩ = .ok (none, rest) ↔
    ∃ k octets middle, k / n < fuel ∧ serveWords w k source = (some octets, middle) ∧
      ByteSource.request middle w.octets = (none, rest.source) ∧
      rest.served = taken + k * w.octets ∧
      ∀ j < k / n, ¬ inRange (blockValue w n bits octets j)
  runsOut : ∀ fuel source taken fault, draw fuel ⟨source, taken⟩ = .error fault ↔
    fault = .outOfFuel ∧ ∃ octets rest, serveWords w (fuel * n) source = (some octets, rest) ∧
      ∀ j < fuel, ¬ inRange (blockValue w n bits octets j)
  succeeds : ∀ source taken, (∃ fuel x rest, draw fuel ⟨source, taken⟩ = .ok (some x, rest)) ↔
    ∃ i octets rest, serveWords w ((i + 1) * n) source = (some octets, rest) ∧
      inRange (blockValue w n bits octets i)
  ends : ∀ source taken count, (serveWords w count source).1 = none →
    ∀ fuel, count ≤ fuel * n → ∃ answer rest k, draw fuel ⟨source, taken⟩ = .ok (answer, rest) ∧
      rest.served = taken + k * w.octets

section

variable {n bits fuel taken : Nat} {inRange : Nat → Prop} {accept : Limbs w → Bool} {source : σ}
  {rest : Metered σ}

theorem sample_metered_some_iff (haccept : ∀ x, accept x = true ↔ inRange (val x)) {x : Limbs w} :
    sample accept n bits fuel (Metered.mk source taken) = .ok (some x, rest) ↔
      x.length = n ∧ ∃ i < fuel, ∃ octets,
        serveWords w ((i + 1) * n) source = (some octets, rest.source) ∧
        rest.served = taken + (i + 1) * n * w.octets ∧
        val x = blockValue w n bits octets i ∧ inRange (val x) ∧
        ∀ j < i, ¬ inRange (blockValue w n bits octets j) := by
  rw [sample_some_iff haccept]
  simp only [Metered.serveWords_iff, and_assoc]

theorem sample_metered_none_iff (haccept : ∀ x, accept x = true ↔ inRange (val x)) (hn : 0 < n) :
    sample accept n bits fuel (Metered.mk source taken) = .ok (none, rest) ↔
      ∃ k octets middle, k / n < fuel ∧ serveWords w k source = (some octets, middle) ∧
        ByteSource.request middle w.octets = (none, rest.source) ∧
        rest.served = taken + k * w.octets ∧
        ∀ j < k / n, ¬ inRange (blockValue w n bits octets j) := by
  rw [sample_none_iff haccept hn]
  constructor
  · rintro ⟨k, octets, middle, hk, hserved, hrefused, houtside⟩
    obtain ⟨hserved, hcount⟩ := Metered.serveWords_iff.mp hserved
    obtain ⟨hrefused, hrest⟩ := Metered.request_none_iff.mp hrefused
    exact ⟨k, octets, middle.source, hk, hserved, hrefused, hrest.trans hcount, houtside⟩
  · rintro ⟨k, octets, middle, hk, hserved, hrefused, hrest, houtside⟩
    exact ⟨k, octets, ⟨middle, taken + k * w.octets⟩, hk, Metered.serveWords_iff.mpr ⟨hserved, rfl⟩,
      Metered.request_none_iff.mpr ⟨hrefused, hrest⟩, houtside⟩

theorem sample_metered_error_iff (haccept : ∀ x, accept x = true ↔ inRange (val x))
    {fault : Fault} :
    sample accept n bits fuel (Metered.mk source taken) = .error fault ↔
      fault = .outOfFuel ∧ ∃ octets rest, serveWords w (fuel * n) source = (some octets, rest) ∧
        ∀ j < fuel, ¬ inRange (blockValue w n bits octets j) := by
  rw [sample_error_iff haccept]
  constructor
  · rintro ⟨rfl, octets, rest, hserved, houtside⟩
    exact ⟨rfl, octets, rest.source, (Metered.serveWords_iff.mp hserved).1, houtside⟩
  · rintro ⟨rfl, octets, rest, hserved, houtside⟩
    exact ⟨rfl, octets, ⟨rest, taken + fuel * n * w.octets⟩,
      Metered.serveWords_iff.mpr ⟨hserved, rfl⟩, houtside⟩

theorem firstAccepted_sample (haccept : ∀ x, accept x = true ↔ inRange (val x)) (hn : 0 < n) :
    FirstAccepted (σ := σ) w n bits inRange (sample accept n bits) where
  accepts fuel source taken x rest := sample_metered_some_iff haccept
  refuses fuel source taken rest := sample_metered_none_iff haccept hn
  runsOut fuel source taken fault := sample_metered_error_iff haccept
  succeeds source taken := by
    constructor
    · rintro ⟨fuel, x, rest, hdraw⟩
      obtain ⟨-, i, -, octets, hserved, -, hval, hrange, -⟩ :=
        (sample_metered_some_iff haccept).mp hdraw
      exact ⟨i, octets, rest.source, hserved, hval ▸ hrange⟩
    · rintro ⟨i, octets, rest, hserved, hrange⟩
      -- block `i` is there, so the draw can neither fail before nor pass it
      match hdraw : sample accept n bits (i + 1) (Metered.mk source taken) with
      | .ok (some x, rest) => exact ⟨i + 1, x, rest, hdraw⟩
      | .ok (none, _) =>
          obtain ⟨k, low, middle, hk, hlow, hrefused, -⟩ :=
            (sample_metered_none_iff haccept hn).mp hdraw
          have hstop : (serveWords w (k + 1) source).1 = none :=
            congrArg Prod.fst (serveWords_none_iff.mpr ⟨k, Nat.lt_succ_self k, low, middle, hlow,
              hrefused⟩)
          have hnone := serveWords_none_mono hstop ((Nat.div_lt_iff_lt_mul hn).mp hk)
          rw [hserved] at hnone
          cases hnone
      | .error fault =>
          obtain ⟨-, octets', rest', hserved', houtside⟩ :=
            (sample_metered_error_iff haccept).mp hdraw
          cases hserved.symm.trans hserved'
          exact absurd hrange (houtside i (Nat.lt_succ_self i))
  ends source taken count hrefused fuel hfuel := by
    match hdraw : sample accept n bits fuel (Metered.mk source taken) with
    | .ok (some x, rest) =>
        obtain ⟨-, i, -, octets, -, hrest, -⟩ := (sample_metered_some_iff haccept).mp hdraw
        exact ⟨some x, rest, (i + 1) * n, rfl, hrest⟩
    | .ok (none, rest) =>
        obtain ⟨k, octets, middle, -, -, -, hrest, -⟩ :=
          (sample_metered_none_iff haccept hn).mp hdraw
        exact ⟨none, rest, k, rfl, hrest⟩
    | .error fault =>
        obtain ⟨-, octets, rest, hserved, -⟩ := (sample_metered_error_iff haccept).mp hdraw
        have hnone := serveWords_none_mono hrefused hfuel
        rw [hserved] at hnone
        cases hnone

end

/-! ## Octets at another width -/

/-- Whether a number was drawn, and which. -/
def drawnValue {w : Width} (draw : Checked (Option (Limbs w) × σ)) : Checked (Option Nat) :=
  draw.map fun answer => answer.1.map val

/-- Blocks of as many octets are the same blocks. -/
theorem drawnValue_sample {w w' : Width} {n n' bits : Nat} (inRange : Nat → Prop)
    {accept : Limbs w → Bool} {accept' : Limbs w' → Bool}
    (haccept : ∀ x, accept x = true ↔ inRange (val x))
    (haccept' : ∀ x, accept' x = true ↔ inRange (val x))
    (hoctets : n * w.octets = n' * w'.octets) (fuel : Nat) (octets : Octets) :
    drawnValue (sample accept n bits fuel (Finite.mk octets)) =
      drawnValue (sample accept' n' bits fuel (Finite.mk octets)) := by
  induction fuel generalizing octets with
  | zero => rfl
  | succ fuel ih =>
      rcases Nat.lt_or_ge octets.length (n * w.octets) with hless | hge
      · have hrefused : serveWords w n (Finite.mk octets) = (none, _) :=
          Prod.ext (Finite.serveWords_of_lt hless) rfl
        have hrefused' : serveWords w' n' (Finite.mk octets) = (none, _) :=
          Prod.ext (Finite.serveWords_of_lt (hoctets ▸ hless)) rfl
        rw [sample_refused hrefused, sample_refused hrefused']
        rfl
      · have hserved := Finite.serveWords_of_le hge
        have hserved' := Finite.serveWords_of_le (hoctets ▸ hge)
        rw [← hoctets] at hserved'
        obtain ⟨x, -, hval, hsample⟩ := sample_served accept bits hserved fuel
        obtain ⟨x', -, hval', hsample'⟩ :=
          sample_served accept' bits hserved' fuel
        have hsame : val x = val x' := hval.trans hval'.symm
        have htake : accept x = accept' x' := by
          rw [Bool.eq_iff_iff, haccept, haccept', hsame]
        rw [hsample, hsample', htake]
        split
        · simp [drawnValue, Except.map, hsame]
        · exact ih _

end CryptoPrimes
