import CryptoPrimes.Proofs.Limbs.Shift
import CryptoPrimes.Proofs.Octets
import CryptoPrimes.Proofs.Scratch
import CryptoPrimes.Sample

/-!
# What a sample can be

Rejection sampling has three outcomes: the fuel runs out, the source fails, or a
number below the bound is drawn (`sampleBelow_cases`).  More fuel changes
nothing about a sample that was drawn (`sampleBelow_mono`).  Every number below
the bound can be drawn: it is what its own octets give (`sampleBelow_toOctets`).
-/

namespace CryptoPrimes

open Limbs

variable {w : Width} {σ : Type} [ByteSource σ]

theorem length_drawWords {n : Nat} {source rest : σ} {block : Limbs w}
    (h : drawWords n source = (some block, rest)) : block.length = n := by
  induction n generalizing source rest block with
  | zero =>
      simp only [drawWords, Prod.mk.injEq, Option.some.injEq] at h
      rw [← h.1]
      rfl
  | succ n ih =>
      rw [drawWords] at h
      split at h
      · simp at h
      · next source' _ =>
          cases hrest : drawWords (w := w) n source' with
          | mk words rest' =>
              rw [hrest] at h
              cases words with
              | none => simp at h
              | some words =>
                  simp only [Option.map_some, Prod.mk.injEq, Option.some.injEq] at h
                  rw [← h.1, List.length_cons, ih hrest]

/-- In a good state every request is served, and the state after it is good. -/
def Serves (good : σ → Prop) : Prop :=
  ∀ s, good s → ∀ n, ∃ octets rest, ByteSource.request s n = (some octets, rest) ∧ good rest

theorem drawWords_of_serves {good : σ → Prop} (hserves : Serves good) (n : Nat) {source : σ}
    (hsource : good source) :
    ∃ block rest, drawWords (w := w) n source = (some block, rest) ∧ good rest := by
  induction n generalizing source with
  | zero => exact ⟨[], source, rfl, hsource⟩
  | succ n ih =>
      obtain ⟨octets, next, hrequest, hnext⟩ := hserves source hsource w.octets
      obtain ⟨block, rest, hdraw, hrest⟩ := ih hnext
      refine ⟨Word.ofOctets octets :: block, rest, ?_, hrest⟩
      rw [drawWords, hrequest]
      dsimp only
      rw [hdraw]
      rfl

/-- A block that is drawn is taken or passed. -/
theorem sample_drawn {accept : Limbs w → Bool} {n bits : Nat} {source rest : σ} {block : Limbs w}
    (h : drawWords n source = (some block, rest)) (fuel : Nat) :
    sample accept n bits (fuel + 1) source =
      if accept (trimBits block bits) then .ok (some (trimBits block bits), rest)
      else sample accept n bits fuel rest := by
  rw [sample, h]

/-- A sample runs out of fuel, or its source fails, or it is accepted. -/
theorem sample_cases (accept : Limbs w → Bool) (n bits fuel : Nat) (source : σ) :
    sample accept n bits fuel source = .error .outOfFuel ∨
      (∃ rest, sample accept n bits fuel source = .ok (none, rest)) ∨
      ∃ x rest, sample accept n bits fuel source = .ok (some x, rest) ∧
        accept x = true ∧ x.length = n := by
  induction fuel generalizing source with
  | zero => exact .inl rfl
  | succ fuel ih =>
      unfold sample
      cases hdraw : drawWords (w := w) n source with
      | mk block rest =>
          cases block with
          | none => exact .inr (.inl ⟨rest, rfl⟩)
          | some block =>
              dsimp only
              split
              · next haccept =>
                  exact .inr (.inr ⟨_, rest, rfl, haccept,
                    by rw [length_trimBits, length_drawWords hdraw]⟩)
              · exact ih rest

theorem sample_mono {accept : Limbs w → Bool} {n bits fuel larger : Nat} {source : σ}
    {result : Option (Limbs w) × σ} (hle : fuel ≤ larger)
    (h : sample accept n bits fuel source = .ok result) :
    sample accept n bits larger source = .ok result := by
  induction fuel generalizing larger source with
  | zero => simp [sample] at h
  | succ fuel ih =>
      obtain ⟨larger, rfl⟩ := Nat.exists_eq_add_of_le' (by omega : 1 ≤ larger)
      rw [sample] at h ⊢
      split at h
      · next hdraw => exact h
      · next hdraw =>
          dsimp only at h ⊢
          split at h
          · next haccept => rw [if_pos haccept]; exact h
          · next haccept => rw [if_neg haccept]; exact ih (by omega) h

private theorem sampleBelow_eq (fuel : Nat) (m : Limbs w) (source : σ) :
    sampleBelow fuel m.length m source =
      if isZero m then .ok (none, source)
      else sample (less · m) m.length (bitLen m) fuel source := by
  unfold sampleBelow
  rw [Checked.require_of rfl]
  rfl

/-- There is no number below zero, and no octet is drawn for one. -/
theorem sampleBelow_zero {m : Limbs w} (hm : val m = 0) (fuel : Nat) (source : σ) :
    sampleBelow fuel m.length m source = .ok (none, source) := by
  rw [sampleBelow_eq, if_pos (isZero_iff.mpr hm)]

theorem sampleBelow_pos {m : Limbs w} (hm : val m ≠ 0) (fuel : Nat) (source : σ) :
    sampleBelow fuel m.length m source =
      sample (less · m) m.length (bitLen m) fuel source := by
  rw [sampleBelow_eq, if_neg (mt isZero_iff.mp hm)]

theorem bitLen_le_one_iff (m : Limbs w) : bitLen m ≤ 1 ↔ val m ≤ 1 := by
  rw [bitLen_eq_size, Nat.size_le, Nat.pow_one, Nat.lt_succ_iff]

/-- Nothing lies between one and a number up to one. -/
theorem sampleNonzeroBelow_le_one {m : Limbs w} (hm : val m ≤ 1) (fuel : Nat) (source : σ) :
    sampleNonzeroBelow fuel m.length m source = .ok (none, source) := by
  unfold sampleNonzeroBelow
  rw [Checked.require_of rfl, Checked.ok_bind, if_pos ((bitLen_le_one_iff m).mpr hm)]
  rfl

theorem sampleNonzeroBelow_gt_one {m : Limbs w} (hm : 1 < val m) (fuel : Nat) (source : σ) :
    sampleNonzeroBelow fuel m.length m source =
      sample (fun x => !isZero x && less x m) m.length (bitLen m) fuel source := by
  unfold sampleNonzeroBelow
  rw [Checked.require_of rfl, Checked.ok_bind,
    if_neg (mt (bitLen_le_one_iff m).mp (Nat.not_le.mpr hm))]

theorem nonzero_less_iff (x m : Limbs w) :
    (!isZero x && less x m) = true ↔ 1 ≤ val x ∧ val x < val m := by
  rw [Bool.and_eq_true, Bool.not_eq_true', isZero_eq_false_iff, less_iff,
    Nat.one_le_iff_ne_zero]

/-- The outcomes of a draw below `m`. -/
theorem sampleBelow_cases (fuel : Nat) (m : Limbs w) (source : σ) :
    sampleBelow fuel m.length m source = .error .outOfFuel ∨
      (∃ rest, sampleBelow fuel m.length m source = .ok (none, rest)) ∨
      ∃ x rest, sampleBelow fuel m.length m source = .ok (some x, rest) ∧
        x.length = m.length ∧ val x < val m := by
  rw [sampleBelow_eq]
  split
  · exact .inr (.inl ⟨source, rfl⟩)
  · rcases sample_cases (less · m) m.length (bitLen m) fuel source with h | h | h
    · exact .inl h
    · exact .inr (.inl h)
    · obtain ⟨x, rest, hdraw, haccept, hlength⟩ := h
      exact .inr (.inr ⟨x, rest, hdraw, hlength, (less_iff x m).mp haccept⟩)

/-- A source that serves every request yields a draw, unless there is nothing to
draw from. -/
theorem sampleBelow_of_serves {good : σ → Prop} (hserves : Serves good) {fuel : Nat} {m : Limbs w}
    (hm : val m ≠ 0) {source rest : σ} (hsource : good source) {draw : Option (Limbs w)}
    (h : sampleBelow fuel m.length m source = .ok (draw, rest)) : draw ≠ none ∧ good rest := by
  rw [sampleBelow_eq, if_neg (fun h => hm (isZero_iff.mp h))] at h
  induction fuel generalizing source with
  | zero => simp [sample] at h
  | succ fuel ih =>
      obtain ⟨block, next, hdraw, hnext⟩ := drawWords_of_serves (w := w) hserves m.length hsource
      rw [sample, hdraw] at h
      dsimp only at h
      split at h
      · cases h
        exact ⟨Option.some_ne_none _, hnext⟩
      · exact ih hnext h

theorem sampleBelow_mono {fuel larger : Nat} {m : Limbs w} {source : σ}
    {result : Option (Limbs w) × σ} (hle : fuel ≤ larger)
    (h : sampleBelow fuel m.length m source = .ok result) :
    sampleBelow larger m.length m source = .ok result := by
  rw [sampleBelow_eq] at h ⊢
  split
  · next hzero => rwa [if_pos hzero] at h
  · next hzero => rw [if_neg hzero] at h; exact sample_mono hle h

/-! ## Draws from given octets -/

/-- Words are drawn from their octets. -/
theorem drawWords_toOctets (a : Limbs w) (rest : Octets) :
    drawWords a.length (Finite.mk (toOctets a ++ rest)) = (some a, ⟨rest⟩) := by
  induction a with
  | nil => rfl
  | cons x xs ih =>
      have hrequest : ByteSource.request (Finite.mk (toOctets (x :: xs) ++ rest)) w.octets =
          (some x.toOctets, ⟨toOctets xs ++ rest⟩) := by
        have hsplit : toOctets (x :: xs) ++ rest = x.toOctets ++ (toOctets xs ++ rest) := by
          rw [toOctets, List.flatMap_cons, List.append_assoc, ← toOctets]
        have hroom : w.octets ≤ (x.toOctets ++ (toOctets xs ++ rest)).length := by
          rw [List.length_append, Word.length_toOctets]
          exact Nat.le_add_right _ _
        show Finite.request _ _ = _
        rw [Finite.request, hsplit, if_pos hroom, List.take_left' (Word.length_toOctets x),
          List.drop_left' (Word.length_toOctets x)]
      rw [List.length_cons, drawWords, hrequest]
      dsimp only
      rw [ih, Word.ofOctets_toOctets]
      rfl

/-- Any number below `m` is what the next draw gives, if its octets come next. -/
theorem sampleBelow_toOctets {m x : Limbs w} (hlen : x.length = m.length) (hlt : val x < val m)
    {fuel : Nat} (hfuel : 0 < fuel) (rest : Octets) :
    sampleBelow fuel m.length m (Finite.mk (toOctets x ++ rest)) = .ok (some x, ⟨rest⟩) := by
  obtain ⟨fuel, rfl⟩ := Nat.exists_eq_add_of_le' hfuel
  have hm : ¬ isZero m = true := by
    rw [isZero_iff]
    omega
  have hfits : val x < 2 ^ bitLen m := by
    rw [bitLen_eq_size]
    exact hlt.trans (Nat.lt_size_self _)
  have hless : less x m = true := (less_iff x m).mpr hlt
  rw [sampleBelow_eq, if_neg hm, sample, ← hlen, drawWords_toOctets]
  dsimp only
  rw [trimBits_of_lt hfits, if_pos hless]

end CryptoPrimes
