import CryptoPrimes.Limbs.Basic

/-!
# Shifts and truncation

A shift by any number of bits is a move by whole words followed by a shift
below one word, in which each word hands the bits it loses to its neighbour.
The number of words never changes: a left shift discards what passes the top, a
right shift what passes the bottom.
-/

namespace CryptoPrimes.Limbs

variable {w : Width}

/-- Shift left by `n` bits with `0 < n < w.bits`, filling the lowest word with
`low`; also the bits lost at the top, in the low end of a word. -/
def shlBits (n : Nat) : Limbs w → Word w → Limbs w × Word w
  | [], low => ([], low)
  | x :: xs, low =>
    let rest := shlBits n xs (x >>> (w.bits - n))
    (((x <<< n) ||| low) :: rest.1, rest.2)

/-- Shift right by `n` bits with `0 < n < w.bits`; also the bits lost at the
bottom, in the high end of a word. -/
def shrBits (n : Nat) : Limbs w → Limbs w × Word w
  | [] => ([], 0)
  | x :: xs =>
    let rest := shrBits n xs
    (((x >>> n) ||| rest.2) :: rest.1, x <<< (w.bits - n))

/-- Shift left by less than a word, with the bits lost at the top. -/
def shlWithin (a : Limbs w) (n : Nat) : Limbs w × Word w :=
  if n = 0 then (a, 0) else shlBits n a 0

/-- Shift right by less than a word, with the bits lost at the bottom. -/
def shrWithin (a : Limbs w) (n : Nat) : Limbs w × Word w :=
  if n = 0 then (a, 0) else shrBits n a

/-- `shlWithin`, refusing a distance of a word or more. -/
def shlCarry (a : Limbs w) (n : Nat) : Checked (Limbs w × Word w) := do
  require (n < w.bits) .outOfRange
  return shlWithin a n

/-- `shrWithin`, refusing a distance of a word or more. -/
def shrCarry (a : Limbs w) (n : Nat) : Checked (Limbs w × Word w) := do
  require (n < w.bits) .outOfRange
  return shrWithin a n

/-- Shift left by any distance; bits moved past the top are discarded. -/
def shiftLeft (a : Limbs w) (distance : Nat) : Limbs w :=
  let words := min (distance / w.bits) a.length
  (shlWithin (zeros words ++ a.take (a.length - words)) (distance % w.bits)).1

/-- Shift right by any distance; bits moved past the bottom are discarded. -/
def shiftRight (a : Limbs w) (distance : Nat) : Limbs w :=
  let words := min (distance / w.bits) a.length
  (shrWithin (a.drop words ++ zeros words) (distance % w.bits)).1

/-- Clear every bit at position `bits` and above. -/
def trimBits : Limbs w → Nat → Limbs w
  | [], _ => []
  | x :: xs, bits =>
    if w.bits ≤ bits then x :: trimBits xs (bits - w.bits)
    else (x &&& (((1 : Word w) <<< bits) - 1)) :: zeros xs.length

end CryptoPrimes.Limbs
