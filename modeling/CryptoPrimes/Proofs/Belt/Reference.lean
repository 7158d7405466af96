import CryptoPrimes.Belt.Hash

/-!
# The construction a digest is defined by

The construction looks at a whole message.  Piece `i`, counted from zero, is the
octets from `32 * i` on, filled up with zeros to 32 octets.  The chaining value
and the accumulator after `i` pieces are a recursion on `i`:

* before the first piece they are those of the origin — the first 32 octets of
  the table and sixteen zeros, if it is `Chain.start`;
* `Chain.next` compresses a piece together with the chaining value: the second
  output is the next chaining value, the first one goes into the accumulator.

The digest is the second output of a last compression, of the length in bits
modulo `2 ^ 128`, the accumulator and the chaining value.

A complete piece of a message is a piece of every longer message
(`piece_append`), and so is what has been computed from complete pieces alone
(`after_append`).
-/

namespace CryptoPrimes.Belt

/-- Piece `i` of a message, filled up with zeros. -/
def piece (message : Octets) (i : Nat) : Octets :=
  ((message.drop (32 * i)).take 32).rightpad 32 0

/-- How many pieces a message has; an empty one has none. -/
def pieceCount (message : Octets) : Nat := (message.length + 31) / 32

namespace Chain

/-- Chaining value and accumulator after one more piece. -/
def next (chain : Chain) (x : Octets) : Chain :=
  let r := compressOctets (x ++ chain.value.octets)
  ⟨r.2, chain.sum.xor r.1⟩

/-- Chaining value and accumulator after the first `i` pieces of a message. -/
def after (origin : Chain) (message : Octets) : Nat → Chain
  | 0 => origin
  | i + 1 => (origin.after message i).next (piece message i)

/-- The last compression, for a message of `count` octets. -/
def digest (chain : Chain) (count : Nat) : Digest :=
  Digest.ofArray (compressOctets
    (Octets.ofNat 16 (8 * count % 2 ^ 128) ++ chain.sum.octets ++ chain.value.octets)).2

/-- The digest of a message from a given origin. -/
def digestOf (origin : Chain) (message : Octets) : Digest :=
  (origin.after message (pieceCount message)).digest message.length

end Chain

/-- The digest of a message. -/
def reference (message : Octets) : Digest := Chain.start.digestOf message

/-! ## Pieces -/

theorem length_piece (message : Octets) (i : Nat) : (piece message i).length = 32 := by
  unfold piece
  rw [List.length_rightpad, List.length_take]
  omega

/-- A piece inside the message is not filled up. -/
theorem piece_of_le {message : Octets} {i : Nat} (h : 32 * (i + 1) ≤ message.length) :
    piece message i = (message.drop (32 * i)).take 32 := by
  have hlength : ((message.drop (32 * i)).take 32).length = 32 := by
    rw [List.length_take, List.length_drop]
    omega
  unfold piece List.rightpad
  rw [hlength, Nat.sub_self, List.replicate_zero, List.append_nil]

/-- A piece that reaches the end of the message is what remains, and zeros. -/
theorem piece_of_ge {message : Octets} {i : Nat} (h : message.length ≤ 32 * (i + 1)) :
    piece message i = (message.drop (32 * i)).rightpad 32 0 := by
  unfold piece
  rw [List.take_of_length_le (by rw [List.length_drop]; omega)]

theorem piece_append {message : Octets} {i : Nat} (h : 32 * (i + 1) ≤ message.length)
    (part : Octets) : piece (message ++ part) i = piece message i := by
  have hlonger : 32 * (i + 1) ≤ (message ++ part).length := by
    rw [List.length_append]
    omega
  rw [piece_of_le h, piece_of_le hlonger, List.drop_append_of_le_length (by omega),
    List.take_append_of_le_length (by rw [List.length_drop]; omega)]

/-- What follows a message does not change what its complete pieces give. -/
theorem Chain.after_append (origin : Chain) {message : Octets} (part : Octets) {k : Nat}
    (h : 32 * k ≤ message.length) :
    origin.after (message ++ part) k = origin.after message k := by
  induction k with
  | zero => rfl
  | succ k ih =>
      unfold Chain.after
      rw [ih (by omega), piece_append h]

/-- Without an incomplete piece the pieces are those inside the message. -/
theorem pieceCount_of_dvd {message : Octets} (h : message.length % 32 = 0) :
    pieceCount message = message.length / 32 := by
  unfold pieceCount
  omega

theorem pieceCount_of_not_dvd {message : Octets} (h : message.length % 32 ≠ 0) :
    pieceCount message = message.length / 32 + 1 := by
  unfold pieceCount
  omega

end CryptoPrimes.Belt
