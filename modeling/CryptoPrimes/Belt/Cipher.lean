import CryptoPrimes.OctetArray

/-!
# The belt block cipher

Belt encrypts blocks of four 32-bit words under a key of eight.  A round mixes
the words by addition, exclusive or and the substitutions `G`: every octet goes
through the table `sBox`, then the word is rotated.  Eight rounds take the key
words in turn, seven a round.

Encryption and decryption run the same `mix`, with the seven key words of a
round in opposite orders, and opposite arrangements of the words between rounds.
That is why decryption undoes encryption whatever the table is.
-/

namespace CryptoPrimes.Belt

/-- The substitution table. -/
def sBox : Array UInt8 := #[
  0xb1, 0x94, 0xba, 0xc8, 0x0a, 0x08, 0xf5, 0x3b, 0x36, 0x6d, 0x00, 0x8e, 0x58, 0x4a, 0x5d, 0xe4,
  0x85, 0x04, 0xfa, 0x9d, 0x1b, 0xb6, 0xc7, 0xac, 0x25, 0x2e, 0x72, 0xc2, 0x02, 0xfd, 0xce, 0x0d,
  0x5b, 0xe3, 0xd6, 0x12, 0x17, 0xb9, 0x61, 0x81, 0xfe, 0x67, 0x86, 0xad, 0x71, 0x6b, 0x89, 0x0b,
  0x5c, 0xb0, 0xc0, 0xff, 0x33, 0xc3, 0x56, 0xb8, 0x35, 0xc4, 0x05, 0xae, 0xd8, 0xe0, 0x7f, 0x99,
  0xe1, 0x2b, 0xdc, 0x1a, 0xe2, 0x82, 0x57, 0xec, 0x70, 0x3f, 0xcc, 0xf0, 0x95, 0xee, 0x8d, 0xf1,
  0xc1, 0xab, 0x76, 0x38, 0x9f, 0xe6, 0x78, 0xca, 0xf7, 0xc6, 0xf8, 0x60, 0xd5, 0xbb, 0x9c, 0x4f,
  0xf3, 0x3c, 0x65, 0x7b, 0x63, 0x7c, 0x30, 0x6a, 0xdd, 0x4e, 0xa7, 0x79, 0x9e, 0xb2, 0x3d, 0x31,
  0x3e, 0x98, 0xb5, 0x6e, 0x27, 0xd3, 0xbc, 0xcf, 0x59, 0x1e, 0x18, 0x1f, 0x4c, 0x5a, 0xb7, 0x93,
  0xe9, 0xde, 0xe7, 0x2c, 0x8f, 0x0c, 0x0f, 0xa6, 0x2d, 0xdb, 0x49, 0xf4, 0x6f, 0x73, 0x96, 0x47,
  0x06, 0x07, 0x53, 0x16, 0xed, 0x24, 0x7a, 0x37, 0x39, 0xcb, 0xa3, 0x83, 0x03, 0xa9, 0x8b, 0xf6,
  0x92, 0xbd, 0x9b, 0x1c, 0xe5, 0xd1, 0x41, 0x01, 0x54, 0x45, 0xfb, 0xc9, 0x5e, 0x4d, 0x0e, 0xf2,
  0x68, 0x20, 0x80, 0xaa, 0x22, 0x7d, 0x64, 0x2f, 0x26, 0x87, 0xf9, 0x34, 0x90, 0x40, 0x55, 0x11,
  0xbe, 0x32, 0x97, 0x13, 0x43, 0xfc, 0x9a, 0x48, 0xa0, 0x2a, 0x88, 0x5f, 0x19, 0x4b, 0x09, 0xa1,
  0x7e, 0xcd, 0xa4, 0xd0, 0x15, 0x44, 0xaf, 0x8c, 0xa5, 0x84, 0x50, 0xbf, 0x66, 0xd2, 0xe8, 0x8a,
  0xa2, 0xd7, 0x46, 0x52, 0x42, 0xa8, 0xdf, 0xb3, 0x69, 0x74, 0xc5, 0x51, 0xeb, 0x23, 0x29, 0x21,
  0xd4, 0xef, 0xd9, 0xb4, 0x3a, 0x62, 0x28, 0x75, 0x91, 0x14, 0x10, 0xea, 0x77, 0x6c, 0xda, 0x1d]

/-- Octets in a block. -/
def blockOctets : Nat := 16

/-- Octets in a key. -/
def keyOctets : Nat := 32

/-! ## Blocks and keys -/

/-- A block of four 32-bit words. -/
structure Block where
  a : UInt32
  b : UInt32
  c : UInt32
  d : UInt32
deriving DecidableEq

/-- The 32-bit word of the first four octets, least significant first; octets
beyond the end are zero. -/
def wordOfOctets (octets : Octets) : UInt32 :=
  (octets.take 4).foldr (fun octet acc => (acc <<< 8) ||| octet.toUInt32) 0

/-- The four octets of a 32-bit word, least significant first. -/
def octetsOfWord (x : UInt32) : Octets :=
  [x.toUInt8, (x >>> 8).toUInt8, (x >>> 16).toUInt8, (x >>> 24).toUInt8]

namespace Block

/-- The block with every bit clear. -/
def zero : Block := ⟨0, 0, 0, 0⟩

/-- The block of the first sixteen octets; octets beyond the end are zero. -/
def ofOctets (octets : Octets) : Block :=
  ⟨wordOfOctets octets, wordOfOctets (octets.drop 4), wordOfOctets (octets.drop 8),
    wordOfOctets (octets.drop 12)⟩

/-- The sixteen octets of a block. -/
def toOctets (x : Block) : Octets :=
  octetsOfWord x.a ++ octetsOfWord x.b ++ octetsOfWord x.c ++ octetsOfWord x.d

/-- The block of a number below `2 ^ 128`, least significant word first; larger
numbers wrap around. -/
def ofNat (n : Nat) : Block :=
  ⟨UInt32.ofNat n, UInt32.ofNat (n / 2 ^ 32), UInt32.ofNat (n / 2 ^ 64), UInt32.ofNat (n / 2 ^ 96)⟩

instance : XorOp Block := ⟨fun x y => ⟨x.a ^^^ y.a, x.b ^^^ y.b, x.c ^^^ y.c, x.d ^^^ y.d⟩⟩

instance : Complement Block := ⟨fun x => ⟨~~~x.a, ~~~x.b, ~~~x.c, ~~~x.d⟩⟩

end Block

/-- A key: eight 32-bit words, as two blocks. -/
structure Key where
  left : Block
  right : Block
deriving DecidableEq

namespace Key

/-- The key of the first 32 octets. -/
def ofOctets (octets : Octets) : Key := ⟨Block.ofOctets octets, Block.ofOctets (octets.drop 16)⟩

/-- A wiped key. -/
def zero : Key := ⟨Block.zero, Block.zero⟩

/-- Round keys are the eight key words in turn, counted from zero. -/
def word (key : Key) (j : Nat) : UInt32 :=
  match j % 8 with
  | 0 => key.left.a
  | 1 => key.left.b
  | 2 => key.left.c
  | 3 => key.left.d
  | 4 => key.right.a
  | 5 => key.right.b
  | 6 => key.right.c
  | _ => key.right.d

/-- What is shown of a key. -/
def masked : String := "Key(***)"

end Key

/-! ## Rounds -/

/-- An octet through the table. -/
def substitute (x : UInt8) : UInt8 := sBox.getD x.toNat 0

/-- Every octet of `x` through the table, then a rotation to the left. -/
def G (rotation : UInt32) (x : UInt32) : UInt32 :=
  let s := (substitute x.toUInt8).toUInt32 |||
    ((substitute (x >>> 8).toUInt8).toUInt32 <<< 8) |||
    ((substitute (x >>> 16).toUInt8).toUInt32 <<< 16) |||
    ((substitute (x >>> 24).toUInt8).toUInt32 <<< 24)
  (s <<< rotation) ||| (s >>> (32 - rotation))

/-- The mixing step of round `i` under seven key words. -/
def mix (k : Nat → UInt32) (i : Nat) (x : Block) : Block :=
  let b := x.b ^^^ G 5 (x.a + k 0)
  let c := x.c ^^^ G 21 (x.d + k 1)
  let a := x.a - G 13 (b + k 2)
  let e := G 21 (b + c + k 3) ^^^ UInt32.ofNat i
  let b := b + e
  let c := c - e
  let d := x.d + G 13 (c + k 4)
  let b := b ^^^ G 21 (a + k 5)
  let c := c ^^^ G 5 (d + k 6)
  ⟨a, b, c, d⟩

/-- The arrangement of words after a round of encryption. -/
def arrange (x : Block) : Block := ⟨x.b, x.d, x.a, x.c⟩

/-- The arrangement of words after a round of decryption. -/
def rearrange (x : Block) : Block := ⟨x.c, x.a, x.d, x.b⟩

/-- Round `i` of encryption, counted from one, uses seven key words upwards. -/
def encryptRound (key : Key) (x : Block) (i : Nat) : Block :=
  arrange (mix (fun j => key.word (7 * (i - 1) + j)) i x)

/-- Round `i` of decryption uses the same seven key words downwards. -/
def decryptRound (key : Key) (x : Block) (i : Nat) : Block :=
  rearrange (mix (fun j => key.word (7 * (i - 1) + (6 - j))) i x)

/-- The numbers of the eight rounds. -/
def rounds : List Nat := [1, 2, 3, 4, 5, 6, 7, 8]

/-- Encrypt a block. -/
def encrypt (key : Key) (x : Block) : Block := arrange (rounds.foldl (encryptRound key) x)

/-- Decrypt a block. -/
def decrypt (key : Key) (x : Block) : Block :=
  rearrange (rounds.reverse.foldl (decryptRound key) x)

/-- Encrypt the sixteen octets of a block. -/
def encryptOctets (key : Key) (x : OctetArray blockOctets) : OctetArray blockOctets :=
  ⟨(encrypt key (Block.ofOctets x.octets)).toOctets, rfl⟩

/-- Decrypt the sixteen octets of a block. -/
def decryptOctets (key : Key) (x : OctetArray blockOctets) : OctetArray blockOctets :=
  ⟨(decrypt key (Block.ofOctets x.octets)).toOctets, rfl⟩

end CryptoPrimes.Belt
