import CryptoPrimes.Trapping.Region
import Mathlib.Data.List.Forall2
import Mathlib.Order.Bounds.Basic

/-!
# Sizing and carving agree

`packed` is the length of a layout from an aligned address as a number of any
size.  Both computations of offsets are measured against it:

* sizing adds up machine sizes and stops at a sum that does not fit
  (`packedLength_eq`), so `packedLength` is `packed` or nothing;
* carving counts offsets that wrap around, and cuts the region as it goes.  A
  layout that passes sizing never wraps (`cut_eq`), and the cuts are those that
  `spans` names, so no cut is beyond the end.

What is skipped at the front depends on the address of the region.  It is at
most one octet less than a word, and exactly that behind an address that is one
more than a multiple of a word (`lead_one`), so `total` cannot be less.
-/

namespace CryptoPrimes

open Checked

/-! ## Paddings -/

theorem add_paddingTo_mod {unit : Nat} (hunit : 0 < unit) (offset : Nat) :
    (offset + paddingTo unit offset) % unit = 0 := by
  unfold paddingTo
  split
  · next h => exact h
  · have hle := Nat.mod_lt offset hunit
    have hsum : offset + (unit - offset % unit) = unit * (offset / unit + 1) := by
      have hdiv := Nat.div_add_mod offset unit
      rw [Nat.mul_add, Nat.mul_one]
      omega
    rw [hsum, Nat.mul_mod_right]

theorem paddingTo_lt {unit : Nat} (hunit : 0 < unit) (offset : Nat) :
    paddingTo unit offset < unit := by
  unfold paddingTo
  split
  · exact hunit
  · omega

/-- A padding is the least one that aligns. -/
theorem paddingTo_isLeast {unit : Nat} (hunit : 0 < unit) (offset : Nat) :
    IsLeast {n | (offset + n) % unit = 0} (paddingTo unit offset) := by
  refine ⟨add_paddingTo_mod hunit offset, fun n hn => ?_⟩
  have hn : (offset + n) % unit = 0 := hn
  unfold paddingTo
  split
  · exact Nat.zero_le n
  · by_contra hless
    have hlt := Nat.mod_lt offset hunit
    have hmod : (offset + n) % unit = (offset % unit + n) % unit := (Nat.mod_add_mod ..).symm
    rw [hmod, Nat.mod_eq_of_lt (by omega)] at hn
    omega

theorem Alignment.octets_pos (w : Width) (alignment : Alignment) : 0 < alignment.octets w := by
  cases alignment with
  | octet => exact Nat.one_pos
  | word => exact w.octets_pos

theorem addSizes_eq (a b : Nat) :
    addSizes a b = if a + b < sizeLimit then some (a + b) else none := rfl

theorem addSizes_eq_some {a b n : Nat} (h : addSizes a b = some n) :
    a + b = n ∧ a + b < sizeLimit := by
  rw [addSizes_eq] at h
  split at h
  · next hfits => exact ⟨Option.some.inj h, hfits⟩
  · cases h

namespace Layout

variable (w : Width)

/-! ## The length of a layout -/

/-- The end of the last part, laid out from `offset` on. -/
def packedFrom (offset : Nat) (layout : Layout) : Nat :=
  layout.foldl (fun offset part =>
    offset + paddingTo (part.alignment.octets w) offset + part.size) offset

/-- Octets from an aligned address to the end of the last part. -/
def packed (layout : Layout) : Nat := packedFrom w 0 layout

/-- The most that is ever skipped at the front. -/
def reserve (layout : Layout) : Nat := if layout.needsWordBase then w.octets - 1 else 0

theorem packedFrom_cons (offset : Nat) (part : Part) (parts : Layout) :
    packedFrom w offset (part :: parts) =
      packedFrom w (offset + paddingTo (part.alignment.octets w) offset + part.size) parts := rfl

theorem le_packedFrom (offset : Nat) (layout : Layout) : offset ≤ packedFrom w offset layout := by
  induction layout generalizing offset with
  | nil => exact Nat.le_refl offset
  | cons part parts ih =>
      have hrest := ih (offset + paddingTo (part.alignment.octets w) offset + part.size)
      rw [packedFrom_cons]
      omega

theorem foldlM_advance {offset : Nat} (hoffset : offset < sizeLimit) (layout : Layout) :
    layout.foldlM (advance w) offset =
      if packedFrom w offset layout < sizeLimit then some (packedFrom w offset layout)
      else none := by
  induction layout generalizing offset with
  | nil => rw [List.foldlM_nil, packedFrom, List.foldl_nil, if_pos hoffset]; rfl
  | cons part parts ih =>
      have hrest := le_packedFrom w
        (offset + paddingTo (part.alignment.octets w) offset + part.size) parts
      rw [List.foldlM_cons, packedFrom_cons, advance, addSizes_eq]
      split
      · rw [Option.bind_eq_bind, Option.bind_some, addSizes_eq]
        split
        · next hend => rw [Option.bind_some, ih hend]
        · rw [if_neg (by omega)]
          rfl
      · rw [if_neg (by omega)]
        rfl

/-- Sizing gives the length unless it does not fit. -/
theorem packedLength_eq (layout : Layout) :
    layout.packedLength w =
      if layout.packed w < sizeLimit then some (layout.packed w) else none :=
  foldlM_advance w (by decide) layout

theorem packedLength_eq_some {layout : Layout} {n : Nat} (h : layout.packedLength w = some n) :
    layout.packed w = n ∧ layout.packed w < sizeLimit := by
  rw [packedLength_eq] at h
  split at h
  · next hfits => exact ⟨Option.some.inj h, hfits⟩
  · cases h

theorem packedLength_eq_none {layout : Layout} (h : layout.packedLength w = none) :
    sizeLimit ≤ layout.packed w := by
  rw [packedLength_eq] at h
  split at h
  · cases h
  · next hover => exact Nat.le_of_not_lt hover

theorem total_eq (layout : Layout) :
    layout.total w = if layout.packed w + layout.reserve w < sizeLimit then
      some (layout.packed w + layout.reserve w) else none := by
  unfold total
  rw [packedLength_eq]
  by_cases hpacked : layout.packed w < sizeLimit
  · rw [if_pos hpacked]
    exact addSizes_eq (layout.packed w) (layout.reserve w)
  · have hsum : ¬ layout.packed w + layout.reserve w < sizeLimit := by omega
    rw [if_neg hpacked, if_neg hsum]
    rfl

theorem total_eq_some {layout : Layout} {n : Nat} (h : layout.total w = some n) :
    layout.packed w + layout.reserve w = n ∧ layout.packed w + layout.reserve w < sizeLimit := by
  rw [total_eq] at h
  split at h
  · next hfits => exact ⟨Option.some.inj h, hfits⟩
  · cases h

/-! ## The front -/

theorem needsWordBase_iff (layout : Layout) :
    layout.needsWordBase = true ↔ ∃ part ∈ layout, part.alignment = .word := by
  unfold needsWordBase
  rw [List.any_eq_true]
  simp only [beq_iff_eq]

theorem reserve_eq (layout : Layout) : layout.reserve w =
    if (∃ part ∈ layout, part.alignment = .word) then w.octets - 1 else 0 := by
  unfold reserve
  simp only [needsWordBase_iff]

theorem lead_le_reserve (layout : Layout) (address : Nat) :
    layout.lead w address ≤ layout.reserve w := by
  have hpadding := paddingTo_lt w.octets_pos address
  unfold lead reserve
  split <;> omega

/-- The worst front is reached. -/
theorem lead_one (layout : Layout) : layout.lead w 1 = layout.reserve w := by
  have hone : paddingTo w.octets 1 = w.octets - 1 := by cases w <;> rfl
  unfold lead reserve
  rw [hone]

/-- The front is the least one behind which word parts can be aligned. -/
theorem lead_isLeast (layout : Layout) (address : Nat) :
    IsLeast {n | (∃ part ∈ layout, part.alignment = .word) → (address + n) % w.octets = 0}
      (layout.lead w address) := by
  unfold lead
  simp only [← needsWordBase_iff]
  by_cases h : layout.needsWordBase = true
  · simpa only [h, if_true, true_implies] using paddingTo_isLeast w.octets_pos address
  · rw [if_neg h]
    exact ⟨fun hword => absurd hword h, fun n _ => Nat.zero_le n⟩

/-! ## The spans of the parts -/

variable (front : Nat)

/-- Every part has its size, and is aligned behind an aligned front. -/
theorem spans_fit (offset : Nat) (layout : Layout) :
    List.Forall₂ (fun part span => span.length = part.size ∧
      ∃ n, span.start = front + n ∧ n % part.alignment.octets w = 0)
      layout (spans w front offset layout) := by
  induction layout generalizing offset with
  | nil => exact .nil
  | cons part parts ih =>
      exact .cons ⟨rfl, _, rfl, add_paddingTo_mod (part.alignment.octets_pos w) offset⟩ (ih _)

theorem spans_inside (offset : Nat) (layout : Layout) :
    ∀ span ∈ spans w front offset layout, front + offset ≤ span.start ∧
      span.start + span.length ≤ front + packedFrom w offset layout := by
  induction layout generalizing offset with
  | nil => exact fun span hspan => absurd hspan List.not_mem_nil
  | cons part parts ih =>
      intro span hspan
      have hrest := le_packedFrom w
        (offset + paddingTo (part.alignment.octets w) offset + part.size) parts
      rw [packedFrom_cons]
      obtain rfl | hlater := List.mem_cons.mp hspan
      · dsimp only
        omega
      · obtain ⟨hstart, hend⟩ := ih _ span hlater
        omega

/-- Every part ends before the next one starts. -/
theorem spans_ordered (offset : Nat) (layout : Layout) :
    (spans w front offset layout).Pairwise fun a b => a.start + a.length ≤ b.start := by
  induction layout generalizing offset with
  | nil => exact .nil
  | cons part parts ih =>
      refine .cons (fun span hspan => ?_) (ih _)
      obtain ⟨hstart, -⟩ := spans_inside w front _ parts span hspan
      dsimp only
      omega

/-- Carving in spans: overflow, too short a region, or the parts. -/
theorem carve_cases (layout : Layout) (address length : Nat) :
    layout.carve w address length =
      if sizeLimit ≤ layout.lead w address + layout.packed w then .error .layoutOverflow
      else if length < layout.lead w address + layout.packed w then
        .error (.scratchTooSmall (layout.lead w address + layout.packed w) length)
      else .ok (spans w (layout.lead w address) 0 layout) := by
  unfold carve
  cases hpacked : layout.packedLength w with
  | none =>
      have hover := layout.packedLength_eq_none w hpacked
      rw [if_pos (by omega)]
  | some packed =>
      obtain ⟨rfl, -⟩ := layout.packedLength_eq_some w hpacked
      dsimp only
      rw [addSizes_eq]
      by_cases hfits : layout.lead w address + layout.packed w < sizeLimit
      · rw [if_pos hfits, if_neg (Nat.not_le_of_lt hfits)]
      · rw [if_neg hfits, if_pos (Nat.le_of_not_lt hfits)]

end Layout

/-! ## Cuts -/

namespace Trapping

namespace Stretch

/-- The octets of a span. -/
def sub (region : Stretch) (span : Span) : Stretch :=
  ⟨region.address + span.start, (region.octets.drop span.start).take span.length⟩

/-- What lies from position `n` on, as a value. -/
def behind (region : Stretch) (n : Nat) : Stretch :=
  ⟨region.address + n, region.octets.drop n⟩

theorem skip_eq {region : Stretch} {n : Nat} (h : n ≤ region.octets.length) :
    region.skip n = .ok (region.behind n) := by
  rw [skip, require_of h]
  rfl

/-- A cut inside the region. -/
theorem splitAt_behind {region : Stretch} {start n : Nat} (h : start + n ≤ region.octets.length) :
    (region.behind start).splitAt n = .ok (region.sub ⟨start, n⟩, region.behind (start + n)) := by
  have hlength : n ≤ (region.behind start).octets.length := by
    show n ≤ (region.octets.drop start).length
    rw [List.length_drop]
    omega
  rw [splitAt, require_of hlength, ok_bind]
  unfold behind
  rw [List.drop_drop, Nat.add_assoc]
  rfl

end Stretch

namespace Layout

variable (w : Width)

theorem wrappingSum_eq {a b : Nat} (h : a + b < sizeLimit) : wrappingSum a b = a + b :=
  Nat.mod_eq_of_lt h

/-- A layout that fits the machine and the region is cut at its spans. -/
theorem cut_eq {region : Stretch} {front offset : Nat} {layout : Layout}
    (hsize : layout.packedFrom w offset < sizeLimit)
    (hroom : front + layout.packedFrom w offset ≤ region.octets.length) :
    cut w offset (region.behind (front + offset)) layout =
      .ok ((layout.spans w front offset).map region.sub) := by
  induction layout generalizing offset with
  | nil => rfl
  | cons part parts ih =>
      have hrest := Layout.le_packedFrom w
        (offset + paddingTo (part.alignment.octets w) offset + part.size) parts
      rw [Layout.packedFrom_cons] at hsize hroom
      have hnext := @ih (offset + paddingTo (part.alignment.octets w) offset + part.size) hsize hroom
      have hsum : wrappingSum (wrappingSum offset (paddingTo (part.alignment.octets w) offset))
          part.size = offset + paddingTo (part.alignment.octets w) offset + part.size := by
        rw [wrappingSum_eq (a := offset) (by omega), wrappingSum_eq (by omega)]
      unfold cut
      dsimp only
      rw [Stretch.splitAt_behind (by omega), ok_bind]
      dsimp only
      rw [Stretch.splitAt_behind (by omega), ok_bind, hsum, Nat.add_assoc front,
        Nat.add_assoc front, hnext]
      rfl

/-- The cuts of a region are the spans of the layout. -/
theorem carve_eq (layout : Layout) (region : Stretch) :
    carve w layout region =
      .ok ((layout.carve w region.address region.octets.length).map (·.map region.sub)) := by
  unfold carve CryptoPrimes.Layout.carve
  cases hpacked : layout.packedLength w with
  | none => rfl
  | some packed =>
      dsimp only
      cases hneeded : addSizes (layout.lead w region.address) packed with
      | none => rfl
      | some needed =>
          dsimp only
          by_cases hshort : region.octets.length < needed
          · rw [if_pos hshort, if_pos hshort]
            rfl
          · obtain ⟨rfl, hsize⟩ := Layout.packedLength_eq_some w hpacked
            obtain ⟨rfl, -⟩ := addSizes_eq_some hneeded
            have hcut : cut w 0 (region.behind (layout.lead w region.address)) layout = _ :=
              cut_eq w hsize (Nat.le_of_not_lt hshort)
            rw [if_neg hshort, if_neg hshort, Stretch.skip_eq (by omega), ok_bind, hcut]
            rfl

/-! ## The promise -/

/-- The parts that are cut from a region. -/
structure Parts (layout : Layout) (region : Stretch) (parts : List Stretch) : Prop where
  /-- One part for each of the layout, of its size, word parts at word addresses. -/
  fits : List.Forall₂ (fun part cut => cut.octets.length = part.size ∧
    (part.alignment = .word → cut.address % w.octets = 0)) layout parts
  /-- Every part ends before the next one starts. -/
  ordered : parts.Pairwise fun a b => a.address + a.octets.length ≤ b.address
  /-- Every part lies in the region and holds what the region holds there. -/
  inside : ∀ cut ∈ parts, region.address ≤ cut.address ∧
    cut.address + cut.octets.length ≤ region.address + region.octets.length ∧
    cut.octets = (region.octets.drop (cut.address - region.address)).take cut.octets.length

/-- What sizing and carving of a layout promise. -/
structure Sound (layout : Layout) : Prop where
  /-- Sizing fails if the length from an aligned address, with room for the
  worst front, does not fit a machine size. -/
  total_none : layout.total w = none ↔ sizeLimit ≤ layout.packed w +
    if (∃ part ∈ layout, part.alignment = .word) then w.octets - 1 else 0
  /-- A region of the total size is enough at every address. -/
  total_suffices : ∀ n, layout.total w = some n → ∀ region : Stretch, n ≤ region.octets.length →
    ∃ parts, carve w layout region = .ok (.ok parts)
  /-- A shorter region is too short at some address. -/
  total_least : ∀ n, layout.total w = some n → ∀ octets : Octets, octets.length < n →
    ∃ address, 0 < address ∧ address + octets.length ≤ sizeLimit ∧
      carve w layout ⟨address, octets⟩ = .ok (.error (.scratchTooSmall n octets.length))
  /-- The front is the least one behind which word parts can be aligned. -/
  lead_least : ∀ address, IsLeast
    {n | (∃ part ∈ layout, part.alignment = .word) → (address + n) % w.octets = 0}
    (layout.lead w address)
  overflow : ∀ region : Stretch, carve w layout region = .ok (.error .layoutOverflow) ↔
    sizeLimit ≤ layout.lead w region.address + layout.packed w
  short : ∀ (region : Stretch) (needed available : Nat),
    carve w layout region = .ok (.error (.scratchTooSmall needed available)) ↔
      layout.lead w region.address + layout.packed w < sizeLimit ∧
      region.octets.length < layout.lead w region.address + layout.packed w ∧
      needed = layout.lead w region.address + layout.packed w ∧
      available = region.octets.length
  parts : ∀ region : Stretch, layout.lead w region.address + layout.packed w < sizeLimit →
    layout.lead w region.address + layout.packed w ≤ region.octets.length →
    ∃ parts, carve w layout region = .ok (.ok parts) ∧ Parts w layout region parts
  /-- No cut is beyond an end. -/
  no_fault : ∀ region : Stretch, ∃ outcome, carve w layout region = .ok outcome

variable {w : Width} {layout : Layout} {region : Stretch}

theorem carve_overflow
    (h : sizeLimit ≤ layout.lead w region.address + layout.packed w) :
    carve w layout region = .ok (.error .layoutOverflow) := by
  rw [carve_eq, layout.carve_cases, if_pos h]
  rfl

theorem carve_short (hfits : layout.lead w region.address + layout.packed w < sizeLimit)
    (h : region.octets.length < layout.lead w region.address + layout.packed w) :
    carve w layout region = .ok (.error (.scratchTooSmall
      (layout.lead w region.address + layout.packed w) region.octets.length)) := by
  rw [carve_eq, layout.carve_cases, if_neg (Nat.not_le_of_lt hfits), if_pos h]
  rfl

theorem carve_ok (hfits : layout.lead w region.address + layout.packed w < sizeLimit)
    (h : layout.lead w region.address + layout.packed w ≤ region.octets.length) :
    carve w layout region =
      .ok (.ok ((layout.spans w (layout.lead w region.address) 0).map region.sub)) := by
  rw [carve_eq, layout.carve_cases, if_neg (Nat.not_le_of_lt hfits),
    if_neg (Nat.not_lt_of_le h)]
  rfl

/-- A span inside the region has its length as a cut. -/
theorem length_sub {span : Span} (h : span.start + span.length ≤ region.octets.length) :
    (region.sub span).octets.length = span.length := by
  show ((region.octets.drop span.start).take span.length).length = span.length
  rw [List.length_take, List.length_drop]
  omega

/-- Spans that are laid out behind the front of a region are its parts. -/
theorem parts_spans (h : layout.lead w region.address + layout.packed w ≤ region.octets.length) :
    Parts w layout region ((layout.spans w (layout.lead w region.address) 0).map region.sub) := by
  have hend : ∀ span ∈ layout.spans w (layout.lead w region.address) 0,
      span.start + span.length ≤ region.octets.length := by
    intro span hspan
    obtain ⟨-, hlast⟩ := Layout.spans_inside w _ 0 layout span hspan
    exact Nat.le_trans hlast h
  refine ⟨?_, ?_, ?_⟩
  · obtain ⟨hcount, hfit⟩ := List.forall₂_iff_zip.mp
      (Layout.spans_fit w (layout.lead w region.address) 0 layout)
    rw [List.forall₂_map_right_iff, List.forall₂_iff_zip]
    refine ⟨hcount, fun {part span} hpair => ?_⟩
    obtain ⟨hpart, hspan⟩ := List.of_mem_zip hpair
    obtain ⟨hsize, n, hstart, hn⟩ := hfit hpair
    refine ⟨(length_sub (hend span hspan)).trans hsize, fun hword => ?_⟩
    have hfront : (region.address + layout.lead w region.address) % w.octets = 0 :=
      (layout.lead_isLeast w region.address).1 ⟨part, hpart, hword⟩
    have hn : n % w.octets = 0 := by
      rw [hword] at hn
      exact hn
    show (region.address + span.start) % w.octets = 0
    rw [hstart, ← Nat.add_assoc, Nat.add_mod, hfront, hn]
    exact Nat.zero_mod _
  · rw [List.pairwise_map]
    refine (Layout.spans_ordered w _ 0 layout).imp_of_mem fun {a b} ha _ hab => ?_
    rw [length_sub (hend a ha)]
    show region.address + a.start + a.length ≤ region.address + b.start
    omega
  · intro cut hcut
    obtain ⟨span, hspan, rfl⟩ := List.mem_map.mp hcut
    have hlast := hend span hspan
    rw [length_sub hlast]
    show region.address ≤ region.address + span.start ∧
      region.address + span.start + span.length ≤ region.address + region.octets.length ∧
      (region.octets.drop span.start).take span.length =
        (region.octets.drop (region.address + span.start - region.address)).take span.length
    rw [Nat.add_sub_cancel_left]
    exact ⟨by omega, by omega, rfl⟩

variable (w layout)

/-- Sizing and carving agree, for every list of parts, every address and every
region. -/
theorem sizing_carving_sound : Sound w layout where
  total_none := by
    rw [Layout.total_eq, ← Layout.reserve_eq]
    by_cases hfits : layout.packed w + layout.reserve w < sizeLimit
    · rw [if_pos hfits]
      exact ⟨fun h => absurd h (Option.some_ne_none _), fun h => absurd hfits (Nat.not_lt_of_le h)⟩
    · rw [if_neg hfits]
      exact ⟨fun _ => Nat.le_of_not_lt hfits, fun _ => rfl⟩
  total_suffices := by
    intro n htotal region hroom
    obtain ⟨hn, hfits⟩ := layout.total_eq_some w htotal
    have hlead := layout.lead_le_reserve w region.address
    exact ⟨_, carve_ok (by omega) (by omega)⟩
  total_least := by
    intro n htotal octets hless
    obtain ⟨hn, hfits⟩ := layout.total_eq_some w htotal
    have hlead := layout.lead_one w
    have hneeded : layout.lead w 1 + layout.packed w = n := by omega
    refine ⟨1, Nat.one_pos, by omega, ?_⟩
    rw [← hneeded]
    exact @carve_short w layout ⟨1, octets⟩ (by dsimp only; omega) (by dsimp only; omega)
  lead_least := layout.lead_isLeast w
  overflow := by
    intro region
    refine ⟨fun h => ?_, carve_overflow⟩
    by_contra hfits
    obtain hshort | hroom := Nat.lt_or_ge region.octets.length
      (layout.lead w region.address + layout.packed w)
    · rw [carve_short (Nat.lt_of_not_le hfits) hshort] at h
      cases h
    · rw [carve_ok (Nat.lt_of_not_le hfits) hroom] at h
      cases h
  short := by
    intro region needed available
    refine ⟨fun h => ?_, fun ⟨hfits, hshort, hneeded, havailable⟩ => ?_⟩
    · obtain hfits | hover := Nat.lt_or_ge (layout.lead w region.address + layout.packed w)
        sizeLimit
      · obtain hshort | hroom := Nat.lt_or_ge region.octets.length
          (layout.lead w region.address + layout.packed w)
        · rw [carve_short hfits hshort] at h
          cases h
          exact ⟨hfits, hshort, rfl, rfl⟩
        · rw [carve_ok hfits hroom] at h
          cases h
      · rw [carve_overflow hover] at h
        cases h
    · rw [hneeded, havailable]
      exact carve_short hfits hshort
  parts := fun region hfits hroom => ⟨_, carve_ok hfits hroom, parts_spans hroom⟩
  no_fault := fun region => ⟨_, carve_eq w layout region⟩

/-- From address 5 three octets are skipped, and five between the parts. -/
example : carve .w64 [⟨3, .octet⟩, ⟨16, .word⟩] ⟨5, List.replicate 27 1⟩ =
    .ok (.ok [⟨8, [1, 1, 1]⟩, ⟨16, List.replicate 16 1⟩]) := by rfl

end Layout

end Trapping

end CryptoPrimes
