import CryptoPrimes.Belt.Cipher
import CryptoPrimes.Error
import CryptoPrimes.OctetArray

/-!
# Belt hash

A message is cut into pieces of 32 octets, the last one filled up with zeros.
Each piece is compressed together with the chaining value; the first output of
the compression is gathered in an accumulator by exclusive or, the second one is
the next chaining value.  A last compression takes the length of the message in
bits, the accumulator and the chaining value, and its second output is the
digest.

A `Hasher` absorbs a message in parts of any size and keeps back the octets of
an unfinished piece in a buffer.  Whatever is copied goes to a checked range, so
absorbing and finishing are `Checked`; `update` and `finish` are their results.

The routines are written over a compression that runs in a monad.  `plainly` only
compresses, and `Logged.compress` also keeps the list of what is compressed.
-/

namespace CryptoPrimes.Belt

/-- Octets in a piece of a message. -/
def pieceOctets : Nat := 32

/-- Octets in a digest. -/
def digestOctets : Nat := 32

/-! ## Compression -/

/-- Encrypt `x` under the key `left, right` and combine with `x` itself. -/
def encryptXor (left right x : Block) : Block := encrypt ⟨left, right⟩ x ^^^ x

/-- The two outputs of a compression: one block, and two blocks. -/
structure Compressed where
  first : Block
  second : Block × Block
deriving DecidableEq

/-- Compress four blocks. -/
def compress (x1 x2 x3 x4 : Block) : Compressed :=
  let s := encryptXor x1 x2 (x3 ^^^ x4)
  ⟨s, encryptXor s x4 x1, encryptXor (~~~s) x3 x2⟩

/-- The compression of 64 octets into sixteen octets and 32 octets. -/
def compressOctets (x : Octets) : OctetArray 16 × OctetArray 32 :=
  let r := compress (Block.ofOctets x) (Block.ofOctets (x.drop 16)) (Block.ofOctets (x.drop 32))
    (Block.ofOctets (x.drop 48))
  (⟨r.first.toOctets, rfl⟩, ⟨r.second.1.toOctets ++ r.second.2.toOctets, rfl⟩)

/-- A compression of 64 octets in a monad of checked steps. -/
abbrev Compressor (m : Type → Type) := Octets → m (OctetArray 16 × OctetArray 32)

/-- Compress, and nothing else. -/
def plainly : Compressor Checked := fun x => return compressOctets x

/-! ## Digests -/

/-- A digest of 32 octets. -/
structure Digest where
  octets : Octets
  length_octets : octets.length = 32
deriving DecidableEq

namespace Digest

/-- The digest in an array. -/
def ofArray (x : OctetArray 32) : Digest := ⟨x.octets, x.length_octets⟩

/-- Read a digest, which has exactly 32 octets. -/
def ofOctets (octets : Octets) : Except Error Digest :=
  if h : octets.length = 32 then .ok ⟨octets, h⟩
  else .error (.invalidLength digestOctets octets.length)

/-- A digest is printed in lower case hexadecimal digits. -/
def hex (x : Digest) : String := Octets.hex x.octets

/-- A digest with its type. -/
def describe (x : Digest) : String := "Digest(" ++ x.hex ++ ")"

/-- Equality that looks at every octet. -/
def same (x y : Digest) : Bool := Octets.sameMasked x.octets y.octets

end Digest

/-! ## The chaining value -/

/-- Chaining value and accumulator. -/
structure Chain where
  value : OctetArray 32
  sum : OctetArray 16
deriving DecidableEq

namespace Chain

/-- The chaining value starts as the first 32 octets of the table. -/
def start : Chain := ⟨⟨sBox.toList.take 32, rfl⟩, .zeros 16⟩

/-- Everything is zero, the chaining value too. -/
def wiped : Chain := ⟨.zeros 32, .zeros 16⟩

section

variable {m : Type → Type} [Monad m] [MonadLiftT Checked m] (compressor : Compressor m)

/-- Compress one piece together with the chaining value. -/
def step (chain : Chain) (piece : Octets) : m Chain := do
  let x ← (OctetArray.zeros 64).write 0 pieceOctets piece
  let x ← x.write pieceOctets 64 chain.value.octets
  let r ← compressor x.octets
  return ⟨r.2, chain.sum.xor r.1⟩

/-- Take the complete pieces of `octets` in turn; also what remains of them. -/
def stepPieces (chain : Chain) (octets : Octets) : m (Chain × Octets) :=
  if _h : (octets.take pieceOctets).length < pieceOctets then return (chain, octets)
  else do
    let chain ← chain.step compressor (octets.take pieceOctets)
    stepPieces chain (octets.drop pieceOctets)
termination_by octets.length
decreasing_by
  simp only [List.length_take, List.length_drop, pieceOctets] at _h ⊢
  omega

/-- The digest of a message of `count` octets after all its pieces. -/
def close (chain : Chain) (count : Nat) : m Digest := do
  let x ← (OctetArray.zeros 64).write 0 16 (Octets.ofNat 16 (8 * count % 2 ^ 128))
  let x ← x.write 16 32 chain.sum.octets
  let x ← x.write 32 64 chain.value.octets
  let r ← compressor x.octets
  return Digest.ofArray r.2

end

end Chain

/-! ## Hashing in parts -/

/-- The state between two parts of a message. -/
structure Hasher where
  chain : Chain
  /-- Its first octets are those of an unfinished piece. -/
  buffer : OctetArray pieceOctets
  /-- How many octets of the buffer are taken. -/
  filled : Nat
  /-- How many octets have been absorbed, modulo `2 ^ 128`. -/
  count : Nat
deriving DecidableEq

namespace Hasher

/-- Nothing absorbed yet. -/
def start : Hasher := ⟨Chain.start, .zeros pieceOctets, 0, 0⟩

/-- A wiped state: everything is zero, the chaining value too. -/
def wiped : Hasher := ⟨Chain.wiped, .zeros pieceOctets, 0, 0⟩

section

variable {m : Type → Type} [Monad m] [MonadLiftT Checked m] (compressor : Compressor m)

/-- Absorb the complete pieces of `part`, and keep the rest in the buffer. -/
def absorb (state : Hasher) (part : Octets) : m Hasher := do
  let (chain, rest) ← state.chain.stepPieces compressor part
  let buffer ← state.buffer.write 0 rest.length rest
  return { state with chain, buffer, filled := rest.length }

/-- Absorb another part.  An unfinished piece is topped up first; a part that
does not complete it only goes into the buffer. -/
def updateWith (state : Hasher) (part : Octets) : m Hasher := do
  let state := { state with count := (state.count + part.length) % 2 ^ 128 }
  if state.filled = 0 then state.absorb compressor part
  else do
    require (state.filled ≤ pieceOctets) .outOfRange
    let taken := min (pieceOctets - state.filled) part.length
    let top ← part.slice 0 taken
    let buffer ← state.buffer.write state.filled (state.filled + taken) top
    let rest ← part.slice taken part.length
    if state.filled + taken < pieceOctets then
      return { state with buffer, filled := state.filled + taken }
    else do
      let chain ← state.chain.step compressor buffer.octets
      absorb compressor { state with chain, buffer, filled := 0 } rest

/-- The digest of everything absorbed; an unfinished piece is filled up with
zeros. -/
def finishWith (state : Hasher) : m Digest := do
  if state.filled = 0 then state.chain.close compressor state.count
  else do
    let rest ← state.buffer.octets.slice 0 state.filled
    let piece ← (OctetArray.zeros pieceOctets).write 0 state.filled rest
    let chain ← state.chain.step compressor piece.octets
    chain.close compressor state.count

end

/-- Absorb another part. -/
def checkedUpdate : Hasher → Octets → Checked Hasher := updateWith plainly

/-- The digest of everything absorbed. -/
def checkedFinish : Hasher → Checked Digest := finishWith plainly

/-- Absorb another part; a state whose buffer is overfull stays as it is. -/
def update (state : Hasher) (part : Octets) : Hasher :=
  match state.checkedUpdate part with
  | .ok next => next
  | .error _ => state

/-- The digest of everything absorbed; a state whose buffer is overfull gives
its chaining value. -/
def finish (state : Hasher) : Digest :=
  match state.checkedFinish with
  | .ok digest => digest
  | .error _ => Digest.ofArray state.chain.value

/-- The digest of everything absorbed, and a fresh state. -/
def finishReset (state : Hasher) : Digest × Hasher := (state.finish, start)

/-- What is shown of a state. -/
def masked : String := "BeltHash(***)"

end Hasher

/-- The digest of a message. -/
def hash (message : Octets) : Digest := (Hasher.start.update message).finish

/-! ## Keeping what is compressed -/

/-- A checked computation together with the list of the inputs compressed so
far, the last one at the end. -/
abbrev Logged := StateT (List Octets) Checked

namespace Logged

/-- Compress 64 octets and note them. -/
def compress : Compressor Logged := fun x => do
  modify (· ++ [x])
  return compressOctets x

/-- The digest of a message. -/
def hash (message : Octets) : Logged Digest := do
  let state ← Hasher.start.updateWith compress message
  state.finishWith compress

end Logged

/-- The inputs compressed while a message is hashed, in their order. -/
def compressions (message : Octets) : List Octets :=
  match (Logged.hash message).run [] with
  | .ok (_, inputs) => inputs
  | .error _ => []

end CryptoPrimes.Belt
