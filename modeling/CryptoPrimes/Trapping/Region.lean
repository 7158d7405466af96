import CryptoPrimes.Region

/-!
# Carving a region by cuts

`Layout.carve` says where the parts of a region start.  Here the region itself
is cut.  A `Stretch` is octets at consecutive addresses; cutting one at a
position beyond its end is a fault.  The front of the region is skipped, and
then each part is cut off behind its padding.  The offset that decides the
paddings is a machine size and wraps around.
-/

namespace CryptoPrimes.Trapping

/-- Octets at consecutive addresses, the first one at `address`. -/
structure Stretch where
  address : Nat
  octets : Octets
deriving DecidableEq

namespace Stretch

/-- What lies from position `n` on. -/
def skip (s : Stretch) (n : Nat) : Checked Stretch := do
  require (n ≤ s.octets.length) .outOfRange
  return ⟨s.address + n, s.octets.drop n⟩

/-- The first `n` octets, and what lies behind them. -/
def splitAt (s : Stretch) (n : Nat) : Checked (Stretch × Stretch) := do
  require (n ≤ s.octets.length) .outOfRange
  return (⟨s.address, s.octets.take n⟩, ⟨s.address + n, s.octets.drop n⟩)

end Stretch

namespace Layout

variable (w : Width)

/-- The sum of two sizes, which wraps around. -/
def wrappingSum (a b : Nat) : Nat := (a + b) % sizeLimit

/-- Cut off the parts in turn.  `offset` counts from the aligned front. -/
def cut : Nat → Stretch → Layout → Checked (List Stretch)
  | _, _, [] => return []
  | offset, rest, part :: parts => do
    let padding := paddingTo (part.alignment.octets w) offset
    let (_, tail) ← rest.splitAt padding
    let (head, tail) ← tail.splitAt part.size
    let others ← cut (wrappingSum (wrappingSum offset padding) part.size) tail parts
    return head :: others

/-- The parts of a region, or the error that is reported. -/
def carve (layout : Layout) (region : Stretch) : Checked (Except Error (List Stretch)) :=
  match layout.packedLength w with
  | none => return .error .layoutOverflow
  | some packed =>
    match addSizes (layout.lead w region.address) packed with
    | none => return .error .layoutOverflow
    | some needed =>
      if region.octets.length < needed then
        return .error (.scratchTooSmall needed region.octets.length)
      else do
        let rest ← region.skip (layout.lead w region.address)
        let parts ← cut w 0 rest layout
        return .ok parts

end Layout

end CryptoPrimes.Trapping
