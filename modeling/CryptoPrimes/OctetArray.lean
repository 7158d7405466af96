import CryptoPrimes.Fault
import CryptoPrimes.Limbs.Octets

/-!
# Octet arrays

Working memory for octets: an array of `n` octets keeps its length whatever is
written to it.  Ranges are checked.  A range that runs backwards or beyond the
end is a fault, and so is a source of another length than the range it is
copied to.
-/

namespace CryptoPrimes

namespace Octets

/-- The octets from position `first` up to position `last`. -/
def slice (octets : Octets) (first last : Nat) : Checked Octets := do
  require (first ≤ last ∧ last ≤ octets.length) .outOfRange
  return (octets.take last).drop first

/-- Octet by octet exclusive or. -/
def xor (a b : Octets) : Octets := List.zipWith (· ^^^ ·) a b

theorem slice_eq {octets : Octets} {first last : Nat} (hfirst : first ≤ last)
    (hlast : last ≤ octets.length) :
    octets.slice first last = .ok ((octets.take last).drop first) := by
  rw [slice, Checked.require_of ⟨hfirst, hlast⟩]
  rfl

theorem length_slice {octets part : Octets} {first last : Nat}
    (h : octets.slice first last = .ok part) : part.length = last - first := by
  by_cases hrange : first ≤ last ∧ last ≤ octets.length
  · rw [slice_eq hrange.1 hrange.2] at h
    rw [← Except.ok.inj h, List.length_drop, List.length_take]
    omega
  · rw [slice, require, if_neg hrange] at h
    cases h

end Octets

/-- An array of `n` octets. -/
@[ext]
structure OctetArray (n : Nat) where
  octets : Octets
  length_octets : octets.length = n
deriving DecidableEq

namespace OctetArray

variable {n : Nat}

/-- The array of zeros. -/
def zeros (n : Nat) : OctetArray n := ⟨List.replicate n 0, List.length_replicate⟩

/-- Octet by octet exclusive or. -/
def xor (a b : OctetArray n) : OctetArray n :=
  ⟨a.octets.xor b.octets, by
    rw [Octets.xor, List.length_zipWith, a.length_octets, b.length_octets, Nat.min_self]⟩

/-- Copy `source` over the octets from position `first` up to position `last`. -/
def write (a : OctetArray n) (first last : Nat) (source : Octets) : Checked (OctetArray n) :=
  if hrange : first ≤ last ∧ last ≤ n then
    if hsource : source.length = last - first then
      .ok ⟨a.octets.take first ++ source ++ a.octets.drop last, by
        have := a.length_octets
        simp only [List.length_append, List.length_take, List.length_drop]
        omega⟩
    else .error .lengthMismatch
  else .error .outOfRange

/-- Writing on behind what is already there. -/
theorem write_behind (a : OctetArray n) {done rest source : Octets} {first last : Nat}
    (ha : a.octets = done ++ rest) (hfirst : done.length = first)
    (hlast : first + source.length = last) (hroom : last ≤ n) :
    ∃ b, a.write first last source = .ok b ∧
      b.octets = done ++ source ++ rest.drop source.length := by
  have htake : a.octets.take first = done := by rw [ha, List.take_left' hfirst]
  have hdrop : a.octets.drop last = rest.drop source.length := by
    rw [ha, ← hlast, ← hfirst, List.drop_length_add_append]
  rw [write, dif_pos ⟨by omega, hroom⟩, dif_pos (by omega)]
  refine ⟨_, rfl, ?_⟩
  show a.octets.take first ++ source ++ a.octets.drop last = _
  rw [htake, hdrop]

/-- Writing from the front of an array of zeros. -/
theorem write_zeros {source : Octets} {last : Nat} (hlast : source.length = last)
    (hroom : last ≤ n) :
    ∃ b, (zeros n).write 0 last source = .ok b ∧ b.octets = source.rightpad n 0 := by
  obtain ⟨b, hb, hoctets⟩ := (zeros n).write_behind (List.nil_append (zeros n).octets).symm rfl
    ((Nat.zero_add _).trans hlast) hroom
  refine ⟨b, hb, ?_⟩
  rw [hoctets]
  unfold zeros List.rightpad
  rw [List.drop_replicate, List.nil_append]

end OctetArray

end CryptoPrimes
