import Mathlib.Logic.Function.Iterate
import Mathlib.SetTheory.Cardinal.Finite
import CryptoPrimes.Belt.Cipher
import CryptoPrimes.Proofs.Octets

/-!
# Decryption undoes encryption

Read the four words of a block backwards and run the mixing step with its seven
key words in opposite order: every half-step then meets the value it was
computed from, and takes it out again (`mix_reverse`).  Reading backwards is two
arrangements, or two rearrangements, one after the other, so a round of one
direction takes a round of the other away from between them
(`decryptRound_encryptRound`, `encryptRound_decryptRound`).  The rounds cancel
from the inside, and the arrangements at the ends cancel each other.

Nothing is asked of the table or the key.  Sixteen octets and a block determine
each other, so all of this holds of octets.
-/

namespace CryptoPrimes.Belt

/-! ## One round -/

/-- The words of a block in opposite order. -/
def Block.reverse (x : Block) : Block := ⟨x.d, x.c, x.b, x.a⟩

theorem rearrange_arrange (x : Block) : rearrange (arrange x) = x := rfl

theorem arrange_rearrange (x : Block) : arrange (rearrange x) = x := rfl

/-- What an exclusive or put in, the same one takes out. -/
theorem xor_xor_self (x y : UInt32) : x ^^^ y ^^^ y = x := by
  rw [UInt32.xor_assoc, UInt32.xor_self, UInt32.xor_zero]

/-- What goes from one word into another leaves their sum as it was. -/
theorem sub_add_add (x y e : UInt32) : y - e + (x + e) = x + y := by
  rw [UInt32.add_comm x e, ← UInt32.add_assoc, UInt32.sub_add_cancel, UInt32.add_comm]

/-- Mixing the reversed result with the key words reversed takes every half-step
back, from the last to the first. -/
theorem mix_reverse (k : Nat → UInt32) (i : Nat) (x : Block) :
    mix (fun j => k (6 - j)) i (mix k i x).reverse = x.reverse := by
  obtain ⟨a, b, c, d⟩ := x
  simp only [mix, Block.reverse, Nat.sub_zero, Nat.reduceSub, xor_xor_self, sub_add_add,
    UInt32.add_sub_cancel, UInt32.sub_add_cancel]

variable (key : Key)

/-- A round of decryption takes the last round of encryption away from behind an
arrangement. -/
theorem decryptRound_encryptRound (i : Nat) (x : Block) :
    decryptRound key (arrange (encryptRound key x i)) i = arrange x := by
  show rearrange (mix _ i (mix (fun j => key.word (7 * (i - 1) + j)) i x).reverse) = arrange x
  rw [mix_reverse fun j => key.word (7 * (i - 1) + j)]
  rfl

/-- A round of encryption takes the last round of decryption away from behind a
rearrangement. -/
theorem encryptRound_decryptRound (i : Nat) (x : Block) :
    encryptRound key (rearrange (decryptRound key x i)) i = rearrange x := by
  show arrange (mix (fun j => key.word (7 * (i - 1) + (6 - (6 - j)))) i
    (mix (fun j => key.word (7 * (i - 1) + (6 - j))) i x).reverse) = rearrange x
  rw [mix_reverse fun j => key.word (7 * (i - 1) + (6 - j))]
  rfl

/-! ## All rounds -/

/-- Rounds of decryption undo the same rounds of encryption, from the last one
inwards. -/
theorem decryptRounds_encryptRounds (is : List Nat) (x : Block) :
    is.reverse.foldl (decryptRound key) (arrange (is.foldl (encryptRound key) x)) = arrange x := by
  induction is generalizing x with
  | nil => rfl
  | cons i is ih =>
      rw [List.reverse_cons, List.foldl_append, List.foldl_cons (l := is), ih]
      exact decryptRound_encryptRound key i x

theorem encryptRounds_decryptRounds (is : List Nat) (x : Block) :
    is.foldl (encryptRound key) (rearrange (is.reverse.foldl (decryptRound key) x)) =
      rearrange x := by
  induction is generalizing x with
  | nil => rfl
  | cons i is ih =>
      rw [List.reverse_cons, List.foldl_append]
      show is.foldl (encryptRound key)
        (encryptRound key (rearrange (decryptRound key (is.reverse.foldl (decryptRound key) x) i)) i) =
          rearrange x
      rw [encryptRound_decryptRound, ih]

theorem decrypt_encrypt (x : Block) : decrypt key (encrypt key x) = x := by
  unfold decrypt encrypt
  rw [decryptRounds_encryptRounds, rearrange_arrange]

theorem encrypt_decrypt (x : Block) : encrypt key (decrypt key x) = x := by
  unfold decrypt encrypt
  rw [encryptRounds_decryptRounds, arrange_rearrange]

/-! ## Octets -/

theorem octetsOfWord_eq (x : UInt32) : octetsOfWord x = Octets.ofNat 4 x.toNat := by
  have hbyte : ∀ s < 32, (x >>> UInt32.ofNat s).toUInt8 = UInt8.ofNat (x.toNat / 2 ^ s) := by
    intro s hs
    rw [← UInt8.toNat_inj, UInt32.toNat_toUInt8, UInt32.toNat_shiftRight, UInt8.toNat_ofNat',
      UInt32.toNat_ofNat', Nat.mod_eq_of_lt (by omega : s < 2 ^ 32), Nat.mod_eq_of_lt hs,
      Nat.shiftRight_eq_div_pow]
  show [UInt8.ofNat x.toNat, (x >>> UInt32.ofNat 8).toUInt8, (x >>> UInt32.ofNat 16).toUInt8,
    (x >>> UInt32.ofNat 24).toUInt8] = _
  rw [hbyte 8 (by decide), hbyte 16 (by decide), hbyte 24 (by decide)]
  simp only [Octets.ofNat, Nat.div_div_eq_div_mul, Nat.reducePow, Nat.reduceMul]

/-- Each step of the fold puts an octet below those before it. -/
theorem toNat_foldr_octets {octets : Octets} (h : octets.length ≤ 4) :
    (octets.foldr (fun octet (acc : UInt32) => (acc <<< 8) ||| octet.toUInt32) 0).toNat =
      Octets.val octets := by
  induction octets with
  | nil => rfl
  | cons octet rest ih =>
      rw [List.length_cons] at h
      have hrest := Octets.val_lt rest
      have hroom : 256 ^ rest.length ≤ 256 ^ 3 := Nat.pow_le_pow_right (by decide) (by omega)
      have hoctet := octet.toNat_lt
      have hfits : Octets.val rest <<< 8 < 2 ^ 32 := by
        rw [Nat.shiftLeft_eq]
        omega
      have height : UInt32.toNat 8 % 32 = 8 := rfl
      rw [List.foldr_cons, UInt32.toNat_or, UInt32.toNat_shiftLeft, UInt8.toNat_toUInt32,
        ih (by omega), Octets.val, height, Nat.mod_eq_of_lt hfits,
        ← Nat.shiftLeft_add_eq_or_of_lt hoctet, Nat.shiftLeft_eq]
      omega

theorem toNat_wordOfOctets (octets : Octets) :
    (wordOfOctets octets).toNat = Octets.val (octets.take 4) :=
  toNat_foldr_octets (List.length_take_le _ _)

theorem wordOfOctets_append (x : UInt32) (rest : Octets) :
    wordOfOctets (octetsOfWord x ++ rest) = x := by
  have hlen : (octetsOfWord x).length = 4 := rfl
  rw [← UInt32.toNat_inj, toNat_wordOfOctets, List.take_left' hlen, octetsOfWord_eq,
    Octets.val_ofNat]
  exact Nat.mod_eq_of_lt x.toNat_lt

theorem octetsOfWord_wordOfOctets {octets : Octets} (h : 4 ≤ octets.length) :
    octetsOfWord (wordOfOctets octets) = octets.take 4 := by
  have hval := Octets.ofNat_val (octets.take 4)
  rw [List.length_take, Nat.min_eq_left h] at hval
  rw [octetsOfWord_eq, toNat_wordOfOctets, hval]

theorem ofOctets_toOctets (x : Block) : Block.ofOctets x.toOctets = x := by
  have hlast : octetsOfWord x.d = octetsOfWord x.d ++ [] := (List.append_nil _).symm
  show Block.mk (wordOfOctets (octetsOfWord x.a ++ _)) (wordOfOctets (octetsOfWord x.b ++ _))
    (wordOfOctets (octetsOfWord x.c ++ _)) (wordOfOctets (octetsOfWord x.d)) = x
  rw [hlast]
  simp only [wordOfOctets_append]

theorem toOctets_ofOctets {octets : Octets} (h : octets.length = blockOctets) :
    (Block.ofOctets octets).toOctets = octets := by
  unfold blockOctets at h
  have hrest : (octets.drop 12).take 4 = octets.drop 12 :=
    List.take_of_length_le (by rw [List.length_drop]; omega)
  have hdrop : ∀ n ≤ 12, 4 ≤ (octets.drop n).length := by
    intro n hn
    rw [List.length_drop]
    omega
  simp only [Block.toOctets, Block.ofOctets]
  rw [octetsOfWord_wordOfOctets (by omega), octetsOfWord_wordOfOctets (hdrop 4 (by decide)),
    octetsOfWord_wordOfOctets (hdrop 8 (by decide)),
    octetsOfWord_wordOfOctets (hdrop 12 (by decide)), hrest, ← List.take_add, ← List.take_add,
    List.take_append_drop]

/-! ## The permutation of the blocks -/

/-- Arrays of `n` octets are the numbers below `256 ^ n`. -/
def octetArrayEquiv (n : Nat) : OctetArray n ≃ Fin (256 ^ n) where
  toFun x := ⟨Octets.val x.octets, by
    have h := Octets.val_lt x.octets
    rwa [x.length_octets] at h⟩
  invFun i := ⟨Octets.ofNat n i, Octets.length_ofNat n i⟩
  left_inv x := by
    have h := Octets.ofNat_val x.octets
    rw [x.length_octets] at h
    exact OctetArray.ext h
  right_inv i := by
    apply Fin.ext
    rw [← Nat.mod_eq_of_lt i.isLt]
    exact Octets.val_ofNat n i

theorem decryptOctets_encryptOctets :
    Function.LeftInverse (decryptOctets key) (encryptOctets key) := by
  intro x
  apply OctetArray.ext
  show (decrypt key (Block.ofOctets (encrypt key _).toOctets)).toOctets = x.octets
  rw [ofOctets_toOctets, decrypt_encrypt, toOctets_ofOctets x.length_octets]

theorem encryptOctets_decryptOctets :
    Function.RightInverse (decryptOctets key) (encryptOctets key) := by
  intro x
  apply OctetArray.ext
  show (encrypt key (Block.ofOctets (decrypt key _).toOctets)).toOctets = x.octets
  rw [ofOctets_toOctets, encrypt_decrypt, toOctets_ofOctets x.length_octets]

/-- Decryption and encryption of sixteen octets undo each other under every key, a
wiped one too.  So encryption permutes the `2 ^ 128` blocks, and as many
decryptions undo any number of encryptions, and the other way round. -/
theorem encryptOctets_permutes :
    (∀ x, decryptOctets key (encryptOctets key x) = x) ∧
    (∀ x, encryptOctets key (decryptOctets key x) = x) ∧
    Function.Bijective (encryptOctets key) ∧ Nat.card (OctetArray blockOctets) = 2 ^ 128 ∧
    ∀ (n : Nat) (x : OctetArray blockOctets),
      (decryptOctets key)^[n] ((encryptOctets key)^[n] x) = x ∧
      (encryptOctets key)^[n] ((decryptOctets key)^[n] x) = x := by
  have hleft := decryptOctets_encryptOctets key
  have hright := encryptOctets_decryptOctets key
  refine ⟨hleft, hright, ⟨hleft.injective, hright.surjective⟩, ?_, ?_⟩
  · exact Nat.card_eq_of_equiv_fin (octetArrayEquiv blockOctets)
  · exact fun n x => ⟨hleft.iterate n x, hright.iterate n x⟩

end CryptoPrimes.Belt
