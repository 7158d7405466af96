import CryptoPrimes.Limbs.Octets

/-!
# Octet strings and numbers

An octet string of `n` octets and a number below `256 ^ n` determine each other;
cutting the string off reduces the number.  A word has the octets of its number.
-/

namespace CryptoPrimes

namespace Octets

theorem val_lt (octets : Octets) : val octets < 256 ^ octets.length := by
  induction octets with
  | nil => exact Nat.one_pos
  | cons octet rest ih =>
      have hoctet := octet.toNat_lt
      rw [val, List.length_cons, Nat.pow_succ]
      omega

theorem val_append (low high : Octets) :
    val (low ++ high) = val low + 256 ^ low.length * val high := by
  induction low with
  | nil => rw [List.nil_append, val, List.length_nil, Nat.pow_zero, Nat.one_mul, Nat.zero_add]
  | cons octet rest ih =>
      rw [List.cons_append, val, val, ih, List.length_cons, Nat.pow_succ', Nat.mul_add,
        Nat.mul_assoc, Nat.add_assoc]

/-- The octets of the number that a string stands for. -/
theorem ofNat_val (octets : Octets) : ofNat octets.length (val octets) = octets := by
  induction octets with
  | nil => rfl
  | cons octet rest ih =>
      have hoctet := octet.toNat_lt
      have hrest : (octet.toNat + 256 * val rest) / 256 = val rest := by omega
      rw [val, List.length_cons, ofNat, hrest, ih]
      congr 1
      rw [← UInt8.toNat_inj, UInt8.toNat_ofNat']
      omega

theorem val_ofNat (count n : Nat) : val (ofNat count n) = n % 256 ^ count := by
  induction count generalizing n with
  | zero => rw [ofNat, val, Nat.pow_zero, Nat.mod_one]
  | succ count ih =>
      have hsplit : n % (256 * 256 ^ count) = n % 256 + 256 * (n / 256 % 256 ^ count) := Nat.mod_mul
      rw [ofNat, val, ih, UInt8.toNat_ofNat', Nat.pow_succ' (m := 256), hsplit]

/-- Octet strings of one length are determined by their number. -/
theorem val_inj {a b : Octets} (hlength : a.length = b.length) (h : val a = val b) : a = b := by
  rw [← ofNat_val a, ← ofNat_val b, hlength, h]

theorem val_replicate_zero (count : Nat) : val (List.replicate count 0) = 0 := by
  induction count with
  | zero => rfl
  | succ count ih => rw [List.replicate_succ, val, ih]; rfl

/-- Cutting a string off reduces its number. -/
theorem val_take (octets : Octets) (count : Nat) :
    val (octets.take count) = val octets % 256 ^ count := by
  rcases Nat.le_total count octets.length with hle | hge
  · have hsplit := val_append (octets.take count) (octets.drop count)
    have hlt := val_lt (octets.take count)
    rw [List.length_take, Nat.min_eq_left hle] at hsplit hlt
    rw [List.take_append_drop] at hsplit
    rw [hsplit, Nat.add_mul_mod_self_left, Nat.mod_eq_of_lt hlt]
  · have hlt := val_lt octets
    have hroom : 256 ^ octets.length ≤ 256 ^ count := Nat.pow_le_pow_right (by decide) hge
    rw [List.take_of_length_le hge, Nat.mod_eq_of_lt (by omega)]

theorem eq_ofNat {octets : Octets} {count n : Nat} (hlength : octets.length = count)
    (h : val octets = n % 256 ^ count) : octets = ofNat count n :=
  val_inj (hlength.trans (length_ofNat count n).symm) (h.trans (val_ofNat count n).symm)

theorem getElem_ofNat {count n i : Nat} (h : i < (ofNat count n).length) :
    (ofNat count n)[i] = UInt8.ofNat (n / 256 ^ i) := by
  induction count generalizing n i with
  | zero => simp [ofNat] at h
  | succ count ih =>
      cases i with
      | zero => simp [ofNat]
      | succ i =>
          simp only [ofNat, List.getElem_cons_succ]
          rw [ih, Nat.div_div_eq_div_mul, Nat.pow_succ']

end Octets

namespace Word

variable {w : Width}

theorem radix_eq_octets (w : Width) : 2 ^ w.bits = 256 ^ w.octets := by
  rw [w.bits_eq_octets, Nat.pow_mul]

/-- Each step of the fold puts an octet below those before it. -/
theorem toNat_foldr_octets {octets : Octets} (h : octets.length ≤ 8) :
    (octets.foldr (fun octet (acc : UInt64) => (acc <<< 8) ||| octet.toUInt64) 0).toNat =
      Octets.val octets := by
  induction octets with
  | nil => rfl
  | cons octet rest ih =>
      rw [List.length_cons] at h
      have hrest := Octets.val_lt rest
      have hroom : 256 ^ rest.length ≤ 256 ^ 7 := Nat.pow_le_pow_right (by decide) (by omega)
      have hoctet := octet.toNat_lt
      rw [List.foldr_cons, UInt64.toNat_or, UInt64.toNat_shiftLeft, UInt8.toNat_toUInt64,
        ih (by omega), Octets.val]
      have hfits : Octets.val rest <<< 8 < 2 ^ 64 := by
        rw [Nat.shiftLeft_eq]
        omega
      have height : UInt64.toNat 8 % 64 = 8 := rfl
      rw [height, Nat.mod_eq_of_lt hfits, ← Nat.shiftLeft_add_eq_or_of_lt hoctet, Nat.shiftLeft_eq]
      omega

theorem toNat_ofOctets {octets : Octets} (h : octets.length ≤ w.octets) :
    (ofOctets octets : Word w).toNat = Octets.val octets := by
  have hlt := Octets.val_lt octets
  have hroom : 256 ^ octets.length ≤ 256 ^ w.octets := Nat.pow_le_pow_right (by decide) h
  rw [ofOctets, toNat_truncate, toNat_foldr_octets (Nat.le_trans h (by cases w <;> decide)),
    radix_eq_octets, Nat.mod_eq_of_lt (Nat.lt_of_lt_of_le hlt hroom)]

/-- The octets of a word are those of its number. -/
theorem toOctets_eq (x : Word w) : x.toOctets = Octets.ofNat w.octets x.toNat := by
  apply List.ext_getElem
  · rw [toOctets, List.length_map, List.length_range, Octets.length_ofNat]
  · intro i hi hi'
    have hbound : 8 * i < 64 := by
      rw [toOctets, List.length_map, List.length_range] at hi
      cases w <;> simp only [Width.octets] at hi <;> omega
    rw [Octets.getElem_ofNat]
    simp only [toOctets, List.getElem_map, List.getElem_range]
    rw [← UInt8.toNat_inj, UInt64.toNat_toUInt8, UInt64.toNat_shiftRight, UInt8.toNat_ofNat',
      UInt64.toNat_ofNat', Nat.mod_eq_of_lt (by omega : 8 * i < 2 ^ 64), Nat.mod_eq_of_lt hbound,
      Nat.shiftRight_eq_div_pow, Nat.pow_mul]
    rfl

@[simp] theorem length_toOctets (x : Word w) : x.toOctets.length = w.octets := by
  rw [toOctets_eq, Octets.length_ofNat]

@[simp] theorem ofOctets_toOctets (x : Word w) : ofOctets x.toOctets = x := by
  ext
  rw [toNat_ofOctets (Nat.le_of_eq (length_toOctets x)), toOctets_eq, Octets.val_ofNat,
    ← radix_eq_octets, Nat.mod_eq_of_lt x.toNat_lt]

end Word

end CryptoPrimes
