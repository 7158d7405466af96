import CryptoPrimes.Error
import CryptoPrimes.Fault
import CryptoPrimes.Limbs.Octets

/-!
# Carving memory regions

A layout is a list of parts, each with a size in octets and an alignment.  The
parts lie one behind the other, with the least padding that aligns each.  If any
part is aligned to words, the first one starts at the next address that is a
multiple of a word, so the region may start anywhere: `total` has room for the
worst case.

Sizes are machine sizes.  A sum that does not fit one has no value here.
-/

namespace CryptoPrimes

/-- How a part is aligned. -/
inductive Alignment where
  | octet
  | word
deriving DecidableEq

namespace Alignment

/-- The address of an aligned part is a multiple of this. -/
def octets (w : Width) : Alignment → Nat
  | octet => 1
  | word => w.octets

end Alignment

/-- Octets from `offset` to the next multiple of `unit`. -/
def paddingTo (unit offset : Nat) : Nat :=
  if offset % unit = 0 then 0 else unit - offset % unit

/-- The sum of two sizes, if it fits a machine word. -/
def addSizes (a b : Nat) : Option Nat := if a + b < sizeLimit then some (a + b) else none

/-- A part of a layout. -/
structure Part where
  size : Nat
  alignment : Alignment
deriving DecidableEq

/-- A part of a region: where it starts and how long it is. -/
structure Span where
  start : Nat
  length : Nat
deriving DecidableEq

/-- Parts to be laid out in order. -/
abbrev Layout := List Part

namespace Layout

variable (w : Width)

/-- Whether a part is aligned to words. -/
def needsWordBase (layout : Layout) : Bool := layout.any fun part => part.alignment == .word

/-- The end of a part that is laid out from `offset` on. -/
def advance (offset : Nat) (part : Part) : Option Nat := do
  let start ← addSizes offset (paddingTo (part.alignment.octets w) offset)
  addSizes start part.size

/-- Octets from an aligned address to the end of the last part. -/
def packedLength (layout : Layout) : Option Nat := layout.foldlM (advance w) 0

/-- Octets that are enough wherever the region starts. -/
def total (layout : Layout) : Option Nat := do
  let packed ← packedLength w layout
  addSizes packed (if layout.needsWordBase then w.octets - 1 else 0)

/-- Octets to skip at the front of a region that starts at `address`. -/
def lead (layout : Layout) (address : Nat) : Nat :=
  if layout.needsWordBase then paddingTo w.octets address else 0

/-- The parts from offset `offset` behind a skipped front of `front` octets. -/
def spans (front : Nat) : Nat → Layout → List Span
  | _, [] => []
  | offset, part :: parts =>
    let start := offset + paddingTo (part.alignment.octets w) offset
    ⟨front + start, part.size⟩ :: spans front (start + part.size) parts

/-- The parts of a region of `length` octets that starts at `address`. -/
def carve (layout : Layout) (address length : Nat) : Except Error (List Span) :=
  match packedLength w layout with
  | none => .error .layoutOverflow
  | some packed =>
    match addSizes (layout.lead w address) packed with
    | none => .error .layoutOverflow
    | some needed =>
      if length < needed then .error (.scratchTooSmall needed length)
      else .ok (spans w (layout.lead w address) 0 layout)

end Layout

/-- A region with every octet of a span set to `value`. -/
def Span.fill (span : Span) (value : UInt8) (region : Octets) : Octets :=
  region.take span.start ++ List.replicate span.length value ++
    region.drop (span.start + span.length)

end CryptoPrimes
