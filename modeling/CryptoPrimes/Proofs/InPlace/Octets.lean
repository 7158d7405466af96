import CryptoPrimes.InPlace.Octets
import CryptoPrimes.Proofs.InPlace.Modular
import CryptoPrimes.Proofs.Limbs.Octets

/-!
# Octets in place and back

The walks over chunks end with the words and the octets of the plain routines,
whatever the target held (`loadInto_eq`, `storeInto_eq`): a ragged chunk is padded
by its buffer of zeros, and the walk of a store cuts off where the target ends.

An octet string and a number that has room for it are then two forms of one
thing.  `Converts` says so for one width, and a number that two widths load from
one string is the same (`octets_round_trip`).
-/

namespace CryptoPrimes

open Limbs CryptoPrimes.Modular Trapping

variable {w : Width}

/-- Octets that are read least significant first do not see zeros behind them. -/
theorem Octets.val_rightpad (octets : Octets) (count : Nat) :
    val (octets.rightpad count 0) = val octets := by
  rw [List.rightpad, val_append, val_replicate_zero, Nat.mul_zero, Nat.add_zero]

namespace InPlace

/-! ## Loading -/

/-- A chunk that is too short for a word is padded with zeros. -/
theorem chunkWord_eq {chunk : Octets} (h : chunk.length ≤ w.octets) :
    chunkWord chunk = .ok (Word.ofOctets chunk : Word w) := by
  obtain ⟨buffer, hwrite, hoctets⟩ := OctetArray.write_zeros rfl h
  have hword : (Word.ofOctets buffer.octets : Word w) = Word.ofOctets chunk := by
    apply Word.ext
    rw [Word.toNat_ofOctets buffer.length_octets.le, Word.toNat_ofOctets h, hoctets,
      Octets.val_rightpad]
  rw [chunkWord, hwrite, Checked.ok_bind, hword]
  rfl

theorem ofOctets_nil (n : Nat) : (ofOctets n [] : Limbs w) = zeros n :=
  val_inj ((length_ofOctets n []).trans (length_zeros n).symm)
    ((val_ofOctets (Nat.zero_le _)).trans (val_zeros n).symm)

theorem loadChunks_eq (n : Nat) (octets : Octets) :
    loadChunks (zeros n) octets = .ok (ofOctets n octets : Limbs w) := by
  induction n generalizing octets with
  | zero => cases octets <;> rfl
  | succ n ih =>
      cases octets with
      | nil =>
          rw [ofOctets_nil]
          rfl
      | cons octet rest =>
          have hchunk := List.length_take_le w.octets (octet :: rest)
          have hzeros : (zeros (n + 1) : Limbs w) = 0 :: zeros n := rfl
          rw [hzeros, loadChunks, chunkWord_eq hchunk, Checked.ok_bind, ih]
          · rfl
          · exact List.cons_ne_nil _ _

theorem loadInto_eq {target : Limbs w} {octets : Octets}
    (h : octets.length ≤ target.length * w.octets) (hsize : octets.length < sizeLimit) :
    loadInto target octets = .ok (ofOctets target.length octets) := by
  rw [loadInto, Checked.require_of (by omega), Checked.ok_bind, cleared_eq_zeros]
  exact loadChunks_eq _ octets

/-! ## Storing -/

/-- The walk is the plain store: each word fills its own octets of the target, or
those that are left of it. -/
theorem storeChunks_eq (a : Limbs w) (count : Nat) :
    storeChunks (List.replicate count 0) a = .ok (Limbs.store count a) := by
  induction a generalizing count with
  | nil => exact congrArg Except.ok (store_nil count).symm
  | cons x xs ih =>
      rcases Nat.eq_zero_or_pos count with rfl | hpos
      · rw [store_eq_ofNat]
        rfl
      · -- of the last word there may be room for some octets only
        have hne : List.replicate count (0 : UInt8) ≠ [] := by
          rw [ne_eq, List.replicate_eq_nil_iff]
          omega
        have hfront : (x.toOctets.take (min w.octets count)).drop 0 = x.toOctets.take count := by
          rw [List.drop_zero, List.take_eq_take_iff, Word.length_toOctets]
          omega
        have hslice : Octets.slice x.toOctets 0 (min w.octets count) =
            .ok (x.toOctets.take count) := by
          rw [Octets.slice_eq (Nat.zero_le _)
            (by rw [Word.length_toOctets]; exact Nat.min_le_left _ _), hfront]
        have hcopied : (x.toOctets.take count).length = min w.octets count := by
          rw [List.length_take, Word.length_toOctets, Nat.min_comm]
        rw [storeChunks, List.length_take, List.length_replicate, hslice, Checked.ok_bind,
          Checked.require_of hcopied, Checked.ok_bind, List.drop_replicate, ih, store_cons]
        · rfl
        · exact hne

theorem storeInto_eq (target : Octets) (a : Limbs w) :
    storeInto target a = .ok (Limbs.store target.length a) := by
  rw [storeInto, List.map_const']
  exact storeChunks_eq a target.length

/-! ## Both ways -/

/-- Loading `octets` over any `n` words ends with the words `a`, on values and in
place. -/
structure Loads (n : Nat) (octets : Octets) (a : Limbs w) : Prop where
  length : a.length = n
  plain : load n octets = .ok a
  inPlace : octets.length < sizeLimit → ∀ target : Limbs w, target.length = n →
    loadInto target octets = .ok a

/-- Storing the words `a` over any `count` octets ends with `octets`, on values and
in place. -/
structure Stores (count : Nat) (a : Limbs w) (octets : Octets) : Prop where
  length : octets.length = count
  plain : Limbs.store count a = octets
  inPlace : ∀ target : Octets, target.length = count → storeInto target a = .ok octets

/-- Octet strings as numbers in words of one width. -/
structure Converts (w : Width) : Prop where
  load : ∀ (n : Nat) (octets : Octets), octets.length ≤ n * w.octets →
    ∃ a : Limbs w, Loads n octets a ∧
      val a = ∑ i : Fin octets.length, (octets.get i).toNat * 256 ^ (i : Nat)
  store : ∀ (count : Nat) (a : Limbs w), ∃ octets, Stores count a octets ∧
    ∀ i (hi : i < octets.length), octets[i].toNat = val a / 256 ^ i % 256
  /-- As many octets as have been loaded are stored again. -/
  store_load : ∀ (n : Nat) (octets : Octets) (a : Limbs w), Loads n octets a →
    Stores octets.length a octets
  /-- Words that have been stored to the last are loaded again, and more words are
  zero. -/
  load_store : ∀ (count n : Nat) (a : Limbs w) (octets : Octets), Stores count a octets →
    a.length * w.octets ≤ count → count ≤ n * w.octets → Loads n octets (extend a n)

theorem loads_ofOctets {n : Nat} {octets : Octets} (h : octets.length ≤ n * w.octets) :
    Loads n octets (ofOctets n octets : Limbs w) where
  length := length_ofOctets n octets
  plain := load_eq h
  inPlace hsize target htarget := by
    subst htarget
    exact loadInto_eq h hsize

theorem stores_store (count : Nat) (a : Limbs w) : Stores count a (Limbs.store count a) where
  length := by rw [store_eq_ofNat, Octets.length_ofNat]
  plain := rfl
  inPlace target htarget := by rw [storeInto_eq, htarget]

/-- What can be loaded has room, and what is loaded is its number. -/
theorem Loads.eq_ofOctets {n : Nat} {octets : Octets} {a : Limbs w} (h : Loads n octets a) :
    octets.length ≤ n * w.octets ∧ a = ofOctets n octets := by
  have hplain := h.plain
  -- without room the load is refused, and nothing was loaded
  by_cases hroom : octets.length ≤ n * w.octets
  · rw [load_eq hroom] at hplain
    exact ⟨hroom, (Except.ok.inj hplain).symm⟩
  · rw [load, require, if_neg hroom] at hplain
    cases hplain

theorem converts (w : Width) : Converts w where
  load n octets h :=
    ⟨ofOctets n octets, loads_ofOctets h, by rw [val_ofOctets h, Octets.val_eq_sum]⟩
  store count a := by
    refine ⟨_, stores_store count a, fun i hi => ?_⟩
    simp only [store_eq_ofNat, Octets.getElem_ofNat, UInt8.toNat_ofNat']
  store_load n octets a h := by
    obtain ⟨hroom, rfl⟩ := h.eq_ofOctets
    have hstored := stores_store octets.length (ofOctets n octets : Limbs w)
    rwa [store_ofOctets hroom] at hstored
  load_store count n a octets h hall hroom := by
    obtain rfl := h.plain
    rw [← ofOctets_store hall hroom]
    exact loads_ofOctets (by rw [h.length]; exact hroom)

/-- Octets and words are two forms of one number: what is loaded is the number of
the octets, what is stored are the octets of the number, each undoes the other, and
the width of the words makes no difference. -/
theorem octets_round_trip :
    (∀ w, Converts w) ∧
      ∀ (octets : Octets) (n n' : Nat) (a : Limbs .w32) (b : Limbs .w64),
        Loads n octets a → Loads n' octets b → val a = val b := by
  refine ⟨converts, fun octets n n' a b ha hb => ?_⟩
  obtain ⟨hroom, rfl⟩ := ha.eq_ofOctets
  obtain ⟨hroom', rfl⟩ := hb.eq_ofOctets
  rw [val_ofOctets hroom, val_ofOctets hroom']

/-- Eleven octets end inside a word of either width. -/
theorem octets_round_trip_eleven :
    let octets : Octets := [1, 2, 3, 4, 5, 6, 7, 8, 9, 10, 11]
    loadInto [9, 9, 9] octets = .ok ([0x0807060504030201, 0x0b0a09, 0] : Limbs .w64) ∧
      loadInto [9, 9, 9] octets = .ok ([0x04030201, 0x08070605, 0x0b0a09] : Limbs .w32) ∧
      storeInto (List.replicate 11 255) ([0x0807060504030201, 0x0b0a09, 0] : Limbs .w64) =
        .ok octets := by
  intro octets
  obtain ⟨hconverts, -⟩ := octets_round_trip
  obtain ⟨a, ha, hvalue⟩ := (hconverts .w64).load 3 octets (by decide)
  obtain ⟨b, hb, hvalue'⟩ := (hconverts .w32).load 3 octets (by decide)
  have haval : a = [0x0807060504030201, 0x0b0a09, 0] :=
    val_inj ha.length (hvalue.trans (by decide))
  have hbval : b = [0x04030201, 0x08070605, 0x0b0a09] :=
    val_inj hb.length (hvalue'.trans (by decide))
  subst haval hbval
  exact ⟨ha.inPlace (by decide) _ rfl, hb.inPlace (by decide) _ rfl,
    ((hconverts .w64).store_load 3 octets _ ha).inPlace _ rfl⟩

end InPlace

end CryptoPrimes
