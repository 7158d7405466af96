import CryptoPrimes.Proofs.Belt.Hash
import CryptoPrimes.Proofs.Octets

/-!
# Equal digests come from a collision of the compression

The inputs that are compressed while a message is hashed are, for every piece,
the piece and the chaining value before it (`Chain.input`), and at last the
length, the accumulator and the chaining value (`Chain.lastInput`).  A hash that keeps
the list gives an account of it (`logged_account`), so that this is `compressions_eq`;
keeping the list does not change the digest (`Logged.hash_run`).

Let two messages of fewer than `2 ^ 125` octets have one digest.  If the last
inputs differ they collide.  Otherwise the lengths agree, for the length in bits
does not wrap around, and so do the chaining values after the last piece.  From
there the comparison goes backwards (`Chain.after_step`): equal values after a
piece come from inputs that collide, or from equal pieces and equal values
before it.  Messages of one length that agree in every piece are equal, although
the last piece is filled up with zeros (`eq_of_pieces`).

Messages of different lengths are never compared piece by piece: their last
inputs differ already.
-/

namespace CryptoPrimes.Belt

open Checked

/-! ## The inputs of a hash -/

namespace Logged

/-- The computation ends with `a` and notes `inputs`, whatever has been noted
before. -/
def Notes {α : Type} (c : Logged α) (inputs : List Octets) (a : α) : Prop :=
  ∀ before, c.run before = .ok (a, before ++ inputs)

/-- What is noted is what is compressed. -/
theorem logged_account : Account Logged.compress Notes where
  pure a before := by
    rw [List.append_nil]
    rfl
  bind h hnext before := by
    rw [StateT.run_bind, h before, ok_bind, hnext, List.append_assoc]
  lift h before := by
    rw [List.append_nil, h]
    rfl
  compress _ _ := rfl

/-- A hash compresses the pieces in turn and then the length. -/
theorem hash_notes (message : Octets) :
    Notes (Logged.hash message)
      (Chain.start.inputs message 0 (pieceCount message) ++
        [(Chain.start.after message (pieceCount message)).lastInput message.length])
      (Belt.hash message) := by
  have hle : message.length / 32 ≤ pieceCount message := by
    unfold pieceCount
    omega
  obtain ⟨state, hupdate, hstate⟩ := Represents.start.updateWith logged_account message
  rw [List.nil_append] at hupdate hstate
  rw [← Chain.start.inputs_append message (Nat.zero_le _) hle, List.append_assoc,
    hash_eq_reference]
  exact logged_account.bind hupdate (hstate.finishWith logged_account)

end Logged

/-- Keeping the list of the inputs does not change the digest. -/
theorem Logged.hash_run (message : Octets) :
    (Logged.hash message).run [] = .ok (Belt.hash message, compressions message) := by
  unfold compressions
  rw [Logged.hash_notes message []]

theorem compressions_eq (message : Octets) :
    compressions message =
      Chain.start.inputs message 0 (pieceCount message) ++
        [(Chain.start.after message (pieceCount message)).lastInput message.length] := by
  unfold compressions
  rw [Logged.hash_notes message []]
  rfl

/-! ## Collisions -/

/-- Two different inputs of 64 octets with one second output. -/
structure Collide (x y : Octets) : Prop where
  length_left : x.length = 64
  length_right : y.length = 64
  ne : x ≠ y
  second_eq : (compressOctets x).2 = (compressOctets y).2

/-- Inputs with one second output collide unless they are equal. -/
theorem Collide.or_eq {x y : Octets} (hx : x.length = 64) (hy : y.length = 64)
    (h : (compressOctets x).2 = (compressOctets y).2) : Collide x y ∨ x = y :=
  (Decidable.em (x = y)).elim .inr fun hne => .inl ⟨hx, hy, hne, h⟩

namespace Chain

theorem length_input (origin : Chain) (message : Octets) (i : Nat) :
    (origin.input message i).length = 64 := by
  unfold input
  rw [List.length_append, length_piece, OctetArray.length_octets]

theorem length_lastInput (chain : Chain) (count : Nat) : (chain.lastInput count).length = 64 := by
  unfold lastInput
  rw [List.length_append, List.length_append, Octets.length_ofNat, OctetArray.length_octets,
    OctetArray.length_octets]

/-- The last input determines the length of a message below `2 ^ 125` octets and
the chaining value after its last piece. -/
theorem lastInput_inj {chain other : Chain} {count more : Nat} (hcount : count < 2 ^ 125)
    (hmore : more < 2 ^ 125) (h : chain.lastInput count = other.lastInput more) :
    count = more ∧ chain.value = other.value := by
  unfold lastInput at h
  obtain ⟨hfront, hvalue⟩ := List.append_inj' h
    (by rw [OctetArray.length_octets, OctetArray.length_octets])
  obtain ⟨hbits, -⟩ := List.append_inj hfront
    (by rw [Octets.length_ofNat, Octets.length_ofNat])
  have hval := congrArg Octets.val hbits
  rw [Octets.val_ofNat, Octets.val_ofNat] at hval
  exact ⟨by omega, OctetArray.ext hvalue⟩

variable (origin : Chain) (m m' : Octets)

/-- Equal chaining values after a piece come from a collision at this piece, or
from equal pieces and equal chaining values before it. -/
theorem after_step {i : Nat}
    (h : (origin.after m (i + 1)).value = (origin.after m' (i + 1)).value) :
    Collide (origin.input m i) (origin.input m' i) ∨
      piece m i = piece m' i ∧ (origin.after m i).value = (origin.after m' i).value := by
  refine (Collide.or_eq (length_input ..) (length_input ..) h).imp_right fun hinput => ?_
  obtain ⟨hpiece, hvalue⟩ := List.append_inj hinput (by rw [length_piece, length_piece])
  exact ⟨hpiece, OctetArray.ext hvalue⟩

/-- Equal chaining values after `k` pieces come from a collision at one of them,
or all of them are equal. -/
theorem after_collides {k : Nat} (h : (origin.after m k).value = (origin.after m' k).value) :
    (∃ i < k, Collide (origin.input m i) (origin.input m' i)) ∨
      ∀ i < k, piece m i = piece m' i := by
  induction k with
  | zero => exact .inr fun i hi => absurd hi (Nat.not_lt_zero i)
  | succ k ih =>
      obtain hcollide | ⟨hpiece, hvalue⟩ := origin.after_step m m' h
      · exact .inl ⟨k, Nat.lt_succ_self k, hcollide⟩
      · obtain ⟨i, hi, hcollide⟩ | hpieces := ih hvalue
        · exact .inl ⟨i, Nat.lt_succ_of_lt hi, hcollide⟩
        · refine .inr fun i hi => ?_
          obtain hlt | rfl := Nat.lt_succ_iff_lt_or_eq.mp hi
          · exact hpieces i hlt
          · exact hpiece

end Chain

/-- Octet `j` of a message is octet `j % 32` of piece `j / 32`. -/
theorem getElem?_piece {message : Octets} {j : Nat} (hj : j < message.length) :
    (piece message (j / 32))[j % 32]? = message[j]? := by
  have hposition : 32 * (j / 32) + j % 32 = j := Nat.div_add_mod j 32
  have hrest : j % 32 < ((message.drop (32 * (j / 32))).take 32).length := by
    rw [List.length_take, List.length_drop]
    omega
  unfold piece List.rightpad
  rw [List.getElem?_append_left hrest, List.getElem?_take_of_lt (Nat.mod_lt j (by decide)),
    List.getElem?_drop, hposition]

/-- Zeros behind the last piece are no octets of the message: its length tells
them apart. -/
theorem eq_of_pieces {m m' : Octets} (hlength : m.length = m'.length)
    (h : ∀ i < pieceCount m, piece m i = piece m' i) : m = m' := by
  apply List.ext_getElem?
  intro j
  by_cases hj : j < m.length
  · have hj' : j < m'.length := hlength ▸ hj
    have hpiece : j / 32 < pieceCount m := by
      unfold pieceCount
      omega
    rw [← getElem?_piece hj, ← getElem?_piece hj', h _ hpiece]
  · rw [List.getElem?_eq_none (by omega), List.getElem?_eq_none (by omega)]

/-- Equal digests of different messages come from a collision among the inputs
of their compressions. -/
theorem compressions_collide {m m' : Octets} (hne : m ≠ m') (hm : m.length < 2 ^ 125)
    (hm' : m'.length < 2 ^ 125) (h : hash m = hash m') :
    ∃ x ∈ compressions m, ∃ x' ∈ compressions m', Collide x x' := by
  have hlast : ∀ message, (Chain.start.after message (pieceCount message)).lastInput
      message.length ∈ compressions message := by
    intro message
    rw [compressions_eq]
    exact List.mem_append_right _ (List.mem_singleton_self _)
  have hinput : ∀ message, ∀ i < pieceCount message,
      Chain.start.input message i ∈ compressions message := by
    intro message i hi
    rw [compressions_eq, Chain.inputs, ← List.range_eq_range', Nat.sub_zero]
    exact List.mem_append_left _ (List.mem_map_of_mem (List.mem_range.mpr hi))
  have hsecond := h
  rw [hash_eq_reference, hash_eq_reference] at hsecond
  obtain hcollide | hsame := Collide.or_eq (Chain.length_lastInput ..) (Chain.length_lastInput ..)
    (OctetArray.ext (congrArg Digest.octets hsecond))
  · exact ⟨_, hlast m, _, hlast m', hcollide⟩
  · obtain ⟨hlength, hvalue⟩ := Chain.lastInput_inj hm hm' hsame
    have hcount : pieceCount m' = pieceCount m := by
      unfold pieceCount
      rw [hlength]
    rw [hcount] at hvalue
    obtain ⟨i, hi, hcollide⟩ | hpieces := Chain.start.after_collides m m' hvalue
    · exact ⟨_, hinput m i hi, _, hinput m' i (hcount.symm ▸ hi), hcollide⟩
    · exact absurd (eq_of_pieces hlength hpieces) hne

/-- Padding and the length encoding bring no collision of their own.  Hashing two
different messages of fewer than `2 ^ 125` octets, and keeping the lists `xs` and
`xs'` of what is compressed, gives their digests; if these are equal, an input
of the one list and another one of the other list, of 64 octets both, have the
same second output. -/
theorem hash_collision_compresses {m m' : Octets} (hne : m ≠ m') (hm : m.length < 2 ^ 125)
    (hm' : m'.length < 2 ^ 125) :
    ∃ xs xs', (Logged.hash m).run [] = .ok (hash m, xs) ∧
      (Logged.hash m').run [] = .ok (hash m', xs') ∧
      (hash m = hash m' → ∃ x ∈ xs, ∃ x' ∈ xs', x.length = 64 ∧ x'.length = 64 ∧ x ≠ x' ∧
        (compressOctets x).2 = (compressOctets x').2) := by
  refine ⟨compressions m, compressions m', Logged.hash_run m, Logged.hash_run m', fun h => ?_⟩
  obtain ⟨x, hx, x', hx', hcollide⟩ := compressions_collide hne hm hm' h
  exact ⟨x, hx, x', hx', hcollide.length_left, hcollide.length_right, hcollide.ne,
    hcollide.second_eq⟩

/-- The empty message and a message of one zero octet. -/
theorem hash_collision_compresses_one_octet :
    ∃ xs xs', (Logged.hash []).run [] = .ok (hash [], xs) ∧
      (Logged.hash [0]).run [] = .ok (hash [0], xs') ∧
      (hash [] = hash [0] → ∃ x ∈ xs, ∃ x' ∈ xs', x.length = 64 ∧ x'.length = 64 ∧ x ≠ x' ∧
        (compressOctets x).2 = (compressOctets x').2) :=
  hash_collision_compresses (by decide) (by decide) (by decide)

end CryptoPrimes.Belt
